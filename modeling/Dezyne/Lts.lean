import Mathlib.Algebra.GroupWithZero.Nat
import Mathlib.Data.List.Sort
import Mathlib.Data.String.Basic
import Dezyne.Lib.Loop
import Dezyne.Lib.Walk
/-!
# The transition systems of the verifier

A vector of nodes, each with its outgoing edges, as `construct-lts` makes it of
the edges of an AUT file. The nodes carry what the searches write into them:
the edge and the distance from the initial node, a color, and the edge to the
previous node of a tau-loop.
-/

namespace Dezyne

/-! ## Labels -/

def ackLabel : String := "<ack>"
def declarativeIllegal : String := "<declarative-illegal>"
def deferLabel : String := "<defer>"
def flushLabel : String := "<flush>"
def illegalLabel : String := "<illegal>"
def invariantLabel : String := "<invariant>"
def stateLabel : String := "<state>"
def tauLabel : String := "tau"

/-- `string-contains` -/
def stringContains (s pattern : String) : Bool :=
  s.toList.tails.any fun t => pattern.toList.isPrefixOf t

/-- `string-prefix?` -/
def stringPrefix (pattern s : String) : Bool := pattern.toList.isPrefixOf s.toList

/-- `string-suffix?` -/
def stringSuffix (pattern s : String) : Bool := pattern.toList.isSuffixOf s.toList

/-! ## Edges and nodes -/

/-- `<edge>` -/
structure Edge (α : Type) where
  fromState : Nat
  label : α
  toState : Nat
  tau : Bool
deriving DecidableEq

/-- `make-edge` -/
def makeEdge (fromState : Nat) (label : String) (toState : Nat) (tau : Bool) : Edge String :=
  ⟨fromState, label, toState, tau || label = tauLabel⟩

/-- `make-edge-loop`; the ends are `-1` in the source, and nothing reads them. -/
def makeEdgeLoop : Edge String := makeEdge 0 "<loop>" 0 true

/-- `edge-canonical-label` -/
def Edge.canonicalLabel (e : Edge String) : String :=
  if stringContains e.label stateLabel then stateLabel else e.label

/-- What `node-color` holds: a color of the search for tau-loops, whether the node is excluded and by
which label, or the edge that shows a node is nondeterministic. -/
inductive Color where
  | white | grey | black
  | flag (b : Bool)
  | label (l : String)
  | edge (e : Edge String)
deriving DecidableEq

/-- All values but `#f` are true. -/
def Color.isTrue : Color → Bool
  | .flag b => b
  | _ => true

/-- `<node>` -/
structure Node where
  state : Nat
  edges : List (Edge String)
  pred : List (Edge String)
  initial : Bool
  color : Color
  parent : Option (Edge String)
  distance : Int
  cycle : Option (Edge String)
deriving DecidableEq

/-- A vector of nodes. -/
abbrev Lts := List Node

/-- `vector-ref` -/
def Lts.node (lts : Lts) (i : Nat) : Node := lts[i]?.getD ⟨i, [], [], false, .white, none, -1, none⟩

/-- `initial` -/
def Lts.initial (lts : Lts) : Nat :=
  if lts.any Node.initial then lts.findIdx Node.initial else 0

/-! ## Construction -/

/-- `sort` by a strict order, which keeps the order of equal elements. -/
def sortBy {α : Type} (less : α → α → Bool) (l : List α) : List α :=
  l.insertionSort fun a b => !less b a

/-- The header and the edges of an AUT file. -/
structure Aut where
  firstState : Nat
  stateCount : Nat
  edges : List (Edge String)
  nonempty : 0 < stateCount
  inRange : ∀ e ∈ edges, e.fromState < stateCount ∧ e.toState < stateCount

theorem Aut.three_pos : 0 < 3 := by decide

theorem Aut.four_pos : 0 < 4 := by decide

/-- `state->node` -/
def stateNode (initialState state : Nat) : Node :=
  ⟨state, [], [], state = initialState, .white, none, -1, none⟩

/-- `set-edge` -/
def setEdge (pred : Bool) (lts : Lts) (edge : Edge String) : Lts :=
  let lts := lts.modify edge.fromState fun node => { node with edges := edge :: node.edges }
  if pred then lts.modify edge.toState fun node => { node with pred := edge :: node.pred } else lts

/-- `set-node-edges` -/
def setNodeEdges (node : Node) : Node :=
  { node with edges := sortBy (fun e0 e1 => e0.canonicalLabel < e1.canonicalLabel) node.edges }

/-- `construct-lts` before `annotate-parent` -/
def constructNodes (pred : Bool) (aut : Aut) : Lts :=
  let lts := (List.range aut.stateCount).map (stateNode aut.firstState)
  (aut.edges.foldl (setEdge pred) lts).map setNodeEdges

/-! ## `annotate-parent` -/

/-- `update-frontier` -/
def updateFrontier (distance : Int) (edge : Edge String) (lts : Lts) (nextFrontier : List Nat) :
    Lts × List Nat :=
  (lts.set edge.toState { lts.node edge.toState with distance := distance + 1, parent := some edge },
    edge.toState :: nextFrontier)

/-- The state of `annotate-parent-it`. -/
structure Frontiers where
  lts : Lts
  curr : List Nat
  next : List Nat

/-- The edges to nodes that have no distance. -/
def newEdges (lts : Lts) (state : Nat) : List (Edge String) :=
  (lts.node state).edges.filter fun e => (lts.node e.toState).distance = -1

/-- One step of `annotate-parent-it`. -/
def annotateParentStep : Frontiers → Option Frontiers
  | ⟨_, [], []⟩ => none
  | ⟨lts, [], next⟩ => some ⟨lts, next, []⟩
  | ⟨lts, state :: curr, next⟩ =>
    let distance := (lts.node state).distance
    let r := (newEdges lts state).foldl (fun r e => updateFrontier distance e r.1 r.2) (lts, next)
    some ⟨r.1, curr, r.2⟩

/-- The number of edges. -/
def Lts.edgeCount (lts : Lts) : Nat := (lts.map (·.edges.length)).sum

/-- `annotate-parent`; every node is reached at most once for each edge to it. -/
def annotateParent (lts : Lts) : Option Lts :=
  let lts : Lts := lts.set lts.initial { lts.node lts.initial with distance := 0, parent := none }
  (Loop.run annotateParentStep (2 * (lts.length + 1) * (lts.edgeCount + 1)) ⟨lts, [lts.initial], []⟩).map
    Frontiers.lts

/-- `construct-lts` -/
def constructLts (aut : Aut) : Option Lts := annotateParent (constructNodes false aut)

/-- `construct-lts #:pred? #t` -/
def constructLtsPred (aut : Aut) : Lts := constructNodes true aut

/-! ## Hiding labels -/

/-- `set-edge-tau` -/
def setEdgeTau (tau excludeTau : List String) (edge : Edge String) : Edge String :=
  { edge with
    tau := edge.label ∉ excludeTau ∧ (edge.label ∈ tau ∨
      ∃ pattern ∈ tau.map (· ++ ".") ++ tau.map (· ++ "("), stringPrefix pattern edge.label) }

/-- `lts-hide` -/
def ltsHide (lts : Lts) (tau excludeTau : List String) : Lts :=
  lts.map fun node => { node with edges := node.edges.map (setEdgeTau tau excludeTau) }

/-- `set-state-edge-tau` -/
def setStateEdgeTau (edge : Edge String) : Edge String :=
  if stringContains edge.label stateLabel then { edge with label := tauLabel } else edge

/-- `lts-hide-state` -/
def ltsHideState (lts : Lts) : Lts :=
  lts.map fun node => { node with edges := node.edges.map setStateEdgeTau }

/-- `state-edge?` of `remove-state-loops` -/
def Edge.stateLoop (e : Edge String) : Bool := stringContains e.label stateLabel && e.fromState = e.toState

/-- `remove-state-loops` -/
def removeStateLoops (lts : Lts) : Lts :=
  lts.map fun node => { node with edges := node.edges.filter fun e => !e.stateLoop }

/-! ## Traces to a node -/

/-- `trace-it` -/
def traceStep (lts : Lts) : Nat × List (Edge String) → Option (Nat × List (Edge String))
  | (state, edges) => (lts.node state).parent.map fun parent => (parent.fromState, parent :: edges)

/-- `trace`; the parents of a node have smaller distances. -/
def trace (lts : Lts) (state : Nat) : Option (List (Edge String)) :=
  (Loop.run (traceStep lts) ((lts.node state).distance.toNat + 1) (state, [])).map Prod.snd

/-- `iota-distance-sorted` -/
def iotaDistanceSorted (lts : Lts) : List Nat :=
  sortBy (fun a b => (lts.node a).distance < (lts.node b).distance) (List.range lts.length)

end Dezyne
