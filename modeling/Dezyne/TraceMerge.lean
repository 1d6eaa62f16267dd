import Mathlib.Data.List.Basic
/-!
# Merging split arrows

The steps of a trace have a communication as one arrow with two ends, or as two
half arrows, the half that is left from first. `merge-communications` makes one
communication of two halves. Records that stand between the halves come before
it, and a half without its other one gets a copy of itself.
-/

namespace Dezyne.TraceMerge

variable {τ : Type}

/-! ## Steps -/

/-- `->` is in and `<-` is out. -/
inductive Direction where
  | in | out
deriving DecidableEq

/-- `<communication>` -/
structure Communication (τ : Type) where
  line : τ
  leftLocation : Option String
  left : Option (List String)
  rightLocation : Option String
  right : Option (List String)
  event : Option String
  direction : Direction
  arrow : String

/-- The other steps, with what was read as `τ`. The line of a message is a step or a text. -/
inductive Record (τ : Type) where
  | illegal (line : τ) (location : Option String) (event : String)
  | message (line : τ ⊕ String) (location : Option String) (message : String)
  | eligible (sexp : τ)
  | header (sexp : τ)
  | labels (sexp : τ)
  | state (sexp : τ)
  | trail (sexp : τ)
  | other (line : τ)

inductive Step (τ : Type) where
  | communication (o : Communication τ)
  | record (o : Record τ)

/-- `message?` -/
def Step.isMessage : Step τ → Bool
  | record (.message _ _ _) => true
  | _ => false

namespace Communication

/-- `communication-complete?` -/
def complete (o : Communication τ) : Bool := o.event.isSome && o.left.isSome && o.right.isSome

/-- `communication-location` -/
def location (o : Communication τ) : Option String :=
  if o.direction = .in then o.leftLocation <|> o.rightLocation else o.rightLocation <|> o.leftLocation

/-- The instance and the event of an end. -/
def joinEnd (instance' : List String) (event : String) : String := ".".intercalate (instance' ++ [event])

/-- `communication->string`, with the way a record is written. -/
def text (formatRecord : Communication τ → String) (o : Communication τ) : String :=
  match o.event, o.left, o.right with
  | some event, some left, some right => joinEnd left event ++ " " ++ o.arrow ++ " " ++ joinEnd right event
  | some event, some left, none => joinEnd left event ++ " " ++ o.arrow ++ " " ++ "..."
  | some event, none, some right => "..." ++ " " ++ o.arrow ++ " " ++ joinEnd right event
  | _, _, _ => formatRecord o

end Communication

/-! ## Reading an arrow -/

/-- The `content` of an end, with the names of its instance. -/
inductive Content where
  | dotted
  | event (instance' : List String) (event : String)

/-- `step->communication` of a content; the event of a queue is not known. -/
def Content.communication : Content → Option (List String × Option String)
  | dotted => none
  | event instance' name => if name = "<q>" then some (instance' ++ ["<q>"], none) else some (instance', some name)

/-- `step->communication` of an arrow, and what its location is put in; `none` is an error. -/
def stepCommunication (line : τ) (location : Option String) (left : Content) (direction : Direction) (arrow : String)
    (right : Content) : Option (Communication τ) :=
  match left.communication, right.communication with
  | some left, some right => some ⟨line, none, some left.1, location, some right.1, left.2 <|> right.2, direction, arrow⟩
  | some left, none => some ⟨line, location, some left.1, none, none, left.2, direction, arrow⟩
  | none, some right => some ⟨line, none, none, location, some right.1, right.2, direction, arrow⟩
  | none, none => none

/-- `code-pijltjes?` -/
def codePijltjes : List (Step τ) → Bool
  | .communication c :: _ => c.left.isSome && c.right.isSome
  | _ => false

/-! ## Merging -/

/-- `first-half?` -/
def firstHalf (step : Communication τ) : Bool :=
  (step.direction = .in && step.left.isSome && !step.right.isSome) ||
    (step.direction = .out && !step.left.isSome && step.right.isSome)

/-- `second-half?` -/
def secondHalf (step2 : Communication τ) : Bool :=
  (step2.direction = .in && !step2.left.isSome && step2.right.isSome) ||
    (step2.direction = .out && step2.left.isSome && !step2.right.isSome)

/-- `merge-able?` -/
def mergeAble (step step2 : Communication τ) : Bool := firstHalf step && secondHalf step2

/-- `synthesize-complement` -/
def synthesizeComplement (step : Communication τ) : Communication τ :=
  if step.left.isSome then
    { step with leftLocation := none, left := none, rightLocation := step.leftLocation, right := step.left }
  else { step with leftLocation := step.rightLocation, left := step.right, rightLocation := none, right := none }

/-- The event of `merge`: a modeling event of the first half gives way to the one of the second. -/
def mergeEvent (event event2 : Option String) : Option String :=
  (if event ∈ [some "inevitable", some "optional"] then none else event) <|> event2

/-- `merge` -/
def merge (step step2 : Communication τ) : Communication τ :=
  let event := mergeEvent step.event step2.event
  let communication :=
    if step.left.isSome then { step with event, rightLocation := step2.rightLocation, right := step2.right }
    else { step with event, leftLocation := step2.leftLocation, left := step2.left }
  if communication.event.isSome then communication else { communication with event }

/-- `make-message` of a text at a location. -/
def makeMessage (location : Option String) (message : String) : Step τ :=
  .record (.message (.inr (location.getD "" ++ message)) location message)

/-- The `loop` of `merge-communications`. -/
def loop (formatRecord : Communication τ → String) : List (Step τ) → List (Step τ)
  | [] => []
  | .record r :: steps => .record r :: loop formatRecord steps
  | .communication step :: steps =>
    if step.left.isSome && step.right.isSome then .communication step :: loop formatRecord steps
    else
      match steps with
      | [] =>
        if firstHalf step then [.communication (merge step (synthesizeComplement step))]
        else if secondHalf step then [.communication (merge (synthesizeComplement step) step)]
        else
          [makeMessage step.location "error: split-arrows missing complement arrow",
            makeMessage step.location ("error: arrow: " ++ step.text formatRecord)]
      | .record r :: steps => .record r :: loop formatRecord (.communication step :: steps)
      | .communication step2 :: steps =>
        if mergeAble step step2 then .communication (merge step step2) :: loop formatRecord steps
        else if firstHalf step then
          .communication (merge step (synthesizeComplement step)) :: loop formatRecord (.communication step2 :: steps)
        else if secondHalf step then
          .communication (merge (synthesizeComplement step) step) :: loop formatRecord (.communication step2 :: steps)
        else
          (Step.communication step :: .communication step2 :: steps).filter Step.isMessage ++
            [makeMessage step.location "error: split-arrows cannot be merged",
              makeMessage step.location ("error: arrow1: " ++ step.text formatRecord),
              makeMessage step2.location ("error: arrow2: " ++ step2.text formatRecord)]
termination_by steps => steps.length

/-- `merge-communications` -/
def mergeCommunications (formatRecord : Communication τ → String) (steps : List (Step τ)) : List (Step τ) :=
  if codePijltjes steps then steps else loop formatRecord steps

/-! ## Splitting -/

/-- A complete communication, apart from its line. -/
structure Arrow where
  leftLocation : Option String
  left : List String
  rightLocation : Option String
  right : List String
  event : String
  direction : Direction
  arrow : String

namespace Arrow

def communication (a : Arrow) (line : τ) : Communication τ :=
  { line, leftLocation := a.leftLocation, left := some a.left, rightLocation := a.rightLocation, right := some a.right,
    event := some a.event, direction := a.direction, arrow := a.arrow }

def leftHalf (a : Arrow) (line : τ) (event : Option String) : Communication τ :=
  { line, leftLocation := a.leftLocation, left := some a.left, rightLocation := none, right := none, event,
    direction := a.direction, arrow := a.arrow }

def rightHalf (a : Arrow) (line : τ) (event : Option String) : Communication τ :=
  { line, leftLocation := none, left := none, rightLocation := a.rightLocation, right := some a.right, event,
    direction := a.direction, arrow := a.arrow }

/-- The half it leaves from: the left one for in and the right one for out. -/
def first (a : Arrow) (line : τ) (event : Option String) : Communication τ :=
  match a.direction with
  | .in => a.leftHalf line event
  | .out => a.rightHalf line event

/-- The half it arrives at. -/
def second (a : Arrow) (line : τ) (event : Option String) : Communication τ :=
  match a.direction with
  | .in => a.rightHalf line event
  | .out => a.leftHalf line event

end Arrow

/-- An arrow to dots is read as the left half. -/
theorem stepCommunication_left {a : Arrow} {left : Content} {event : Option String}
    (h : left.communication = some (a.left, event)) (line : τ) :
    stepCommunication line a.leftLocation left a.direction a.arrow .dotted = some (a.leftHalf line event) := by
  rw [stepCommunication, h]
  rfl

/-- An arrow from dots is read as the right half. -/
theorem stepCommunication_right {a : Arrow} {right : Content} {event : Option String}
    (h : right.communication = some (a.right, event)) (line : τ) :
    stepCommunication line a.rightLocation .dotted a.direction a.arrow right = some (a.rightHalf line event) := by
  rw [stepCommunication, h]
  rfl

/-- The complete communications are the ones of an `Arrow`. -/
theorem complete_iff {o : Communication τ} : o.complete = true ↔ ∃ a : Arrow, o = a.communication o.line := by
  constructor
  · obtain ⟨line, leftLocation, left, rightLocation, right, event, direction, arrow⟩ := o
    intro h
    simp only [Communication.complete, Bool.and_eq_true, Option.isSome_iff_exists] at h
    obtain ⟨⟨⟨event, rfl⟩, left, rfl⟩, right, rfl⟩ := h
    exact ⟨⟨leftLocation, left, rightLocation, right, event, direction, arrow⟩, rfl⟩
  · rintro ⟨a, ha⟩
    rw [ha]
    rfl

/-- The events of two halves: both have the one of the communication, or one half is at a queue and has none. -/
inductive Halved (event : String) : Option String → Option String → Prop
  | both : Halved event (some event) (some event)
  | first (h : event ≠ "inevitable" ∧ event ≠ "optional") : Halved event (some event) none
  | second : Halved event none (some event)

/-- A complete communication with the records before it and between its halves. -/
structure Piece (τ : Type) where
  before : List (Record τ)
  arrow : Arrow
  between : List (Record τ)
  firstLine : τ
  secondLine : τ
  firstEvent : Option String
  secondEvent : Option String
  halved : Halved arrow.event firstEvent secondEvent

namespace Piece

/-- Its half arrows, among its records. -/
def split (p : Piece τ) : List (Step τ) :=
  p.before.map .record ++ .communication (p.arrow.first p.firstLine p.firstEvent) ::
    (p.between.map .record ++ [.communication (p.arrow.second p.secondLine p.secondEvent)])

/-- Its records, and the communication. -/
def whole (p : Piece τ) : List (Step τ) :=
  (p.before ++ p.between).map .record ++ [.communication (p.arrow.communication p.firstLine)]

end Piece

section
variable {formatRecord : Communication τ → String} {a : Arrow} {line line₁ line₂ : τ} {event event₁ event₂ : Option String}
  {records : List (Record τ)} {steps : List (Step τ)}

theorem mergeEvent_halved {e : String} (h : Halved e event₁ event₂) : mergeEvent event₁ event₂ = some e := by
  unfold mergeEvent
  cases h with
  | both => split <;> rfl
  | first h => rw [if_neg (by simp [h])]; rfl
  | second => rfl

theorem merge_halves (h : Halved a.event event₁ event₂) :
    merge (a.first line₁ event₁) (a.second line₂ event₂) = a.communication line₁ := by
  unfold Arrow.first Arrow.second
  split
  · simp only [merge, Arrow.leftHalf, Arrow.rightHalf, mergeEvent_halved h, Option.isSome_some, if_true]
    rfl
  · simp only [merge, Arrow.leftHalf, Arrow.rightHalf, mergeEvent_halved h, Option.isSome_some, Option.isSome_none,
      Bool.false_eq_true, if_true, if_false]
    rfl

theorem firstHalf_first : firstHalf (a.first line event) = true := by
  unfold Arrow.first
  split <;> rename_i h <;> simp [firstHalf, Arrow.leftHalf, Arrow.rightHalf, h]

theorem secondHalf_second : secondHalf (a.second line event) = true := by
  unfold Arrow.second
  split <;> rename_i h <;> simp [secondHalf, Arrow.leftHalf, Arrow.rightHalf, h]

/-- A half has one end. -/
theorem not_both_first : ((a.first line event).left.isSome && (a.first line event).right.isSome) = false := by
  unfold Arrow.first
  split <;> rfl

theorem loop_records : loop formatRecord (records.map .record ++ steps) = records.map .record ++ loop formatRecord steps := by
  induction records with
  | nil => rfl
  | cons r records ih => rw [List.map_cons, List.cons_append, loop, ih, List.cons_append]

/-- What is between two halves comes before their communication. -/
theorem loop_halves (h : Halved a.event event₁ event₂) :
    loop formatRecord (.communication (a.first line₁ event₁) ::
      (records.map .record ++ .communication (a.second line₂ event₂) :: steps)) =
    records.map .record ++ .communication (a.communication line₁) :: loop formatRecord steps := by
  induction records with
  | nil =>
    rw [List.map_nil, List.nil_append, List.nil_append, loop, if_neg (by rw [not_both_first]; exact Bool.false_ne_true),
      if_pos (by rw [mergeAble, firstHalf_first, secondHalf_second]; rfl), merge_halves h]
  | cons r records ih =>
    rw [List.map_cons, List.cons_append, loop, if_neg (by rw [not_both_first]; exact Bool.false_ne_true), ih,
      List.cons_append]

theorem loop_split (p : Piece τ) : loop formatRecord (p.split ++ steps) = p.whole ++ loop formatRecord steps := by
  rw [Piece.split, List.append_assoc, loop_records, List.cons_append, List.append_assoc, List.singleton_append,
    loop_halves p.halved, Piece.whole, List.map_append, List.append_assoc, List.append_assoc, List.singleton_append]

/-- The first step of split communications is not a complete one. -/
theorem codePijltjes_split (pieces : List (Piece τ)) :
    codePijltjes (pieces.flatMap Piece.split ++ records.map .record) = false := by
  cases pieces with
  | nil => cases records <;> rfl
  | cons p pieces =>
    rw [List.flatMap_cons, Piece.split]
    cases p.before with
    | nil => exact not_both_first
    | cons r before => rfl

end

/-- Half arrows are merged to the communications they were split from, and every other record stays. -/
theorem mergeCommunications_split (formatRecord : Communication τ → String) (pieces : List (Piece τ)) (rest : List (Record τ)) :
    mergeCommunications formatRecord (pieces.flatMap Piece.split ++ rest.map .record) =
      pieces.flatMap Piece.whole ++ rest.map .record := by
  rw [mergeCommunications, codePijltjes_split, if_neg Bool.false_ne_true]
  induction pieces with
  | nil =>
    have hrest : loop formatRecord (rest.map .record ++ []) = rest.map .record ++ loop formatRecord [] := loop_records
    rwa [loop, List.append_nil] at hrest
  | cons p pieces ih => rw [List.flatMap_cons, List.append_assoc, loop_split, ih, List.flatMap_cons, List.append_assoc]

end Dezyne.TraceMerge
