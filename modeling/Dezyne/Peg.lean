import Dezyne.Lib.Datum
/-!
# The parser generator

`compile-peg-pattern` makes a parser of a pattern, `define-peg-pattern` wraps it: it
skips blanks and comments first, names what was parsed, and keeps its results in a
table with one place for all positions that are equal modulo 512. A parser is given
the text and a position; it gives the position after what it parsed and a tree, or
`#f`, or it throws a syntax error. `run` takes fuel, and more of it changes no
outcome. Parsing on after an error (`%peg:fall-back?`) is left out.
-/

namespace Dezyne.Peg

inductive Pattern (N : Type) where
  | any
  /-- An identifier: a nonterminal, a skip parser or a procedure. -/
  | sym (n : N)
  | str (s : List Char)
  | range (first last : Char)
  | ignore (p : Pattern N)
  | capture (p : Pattern N)
  | and (ps : List (Pattern N))
  | or (ps : List (Pattern N))
  | star (p : Pattern N)
  | plus (p : Pattern N)
  | opt (p : Pattern N)
  | followedBy (p : Pattern N)
  | notFollowedBy (p : Pattern N)
  | expect (p : Pattern N)

/-- What is kept of what was parsed. -/
inductive Accum where
  | all | name | body | none
  deriving DecidableEq

def Accum.builtinFilter : Accum → Accum
  | .all => .body
  | a => a

/-- A parser written by hand: it acts; it parses a nonterminal and acts on its text; it parses a nonterminal without
skipping. -/
inductive Proc (N A : Type) where
  | act (a : A)
  | named (n : N) (a : A)
  | noSkip (n : N)

/-- `define-peg-pattern`, `define-skip-parser`, `define` -/
inductive Definition (N A : Type) where
  | peg (accum : Accum) (p : Pattern N)
  | skip (accum : Accum) (p : Pattern N)
  | proc (p : Proc N A)

/-- The definitions of identifiers, and what actions do with a text and the names kept so far; `none` is `#f`. -/
structure Grammar (N A U : Type) where
  rule : N → Definition N A
  symbol : N → List Char
  act : A → List Char → U → Option U

/-- The text, which the tables know by its identity, and the parameters `%peg:locations?` and `%peg:skip?`, a repetition
of `skip`. -/
structure Input (N : Type) where
  str : Nat
  text : List Char
  locations : Bool
  skip : Option (Pattern N)

/-- What is kept of a result: the text, the position, and the result. -/
structure Entry where
  str : Nat
  start : Nat
  res : Option (Nat × Datum)

/-- The tables of the nonterminals, and the names that actions keep. -/
structure State (N U : Type) where
  cache : N → Nat → Option Entry
  user : U

inductive Outcome (N U : Type) where
  | ok (stop : Nat) (body : Datum) (st : State N U)
  | fail (st : State N U)
  /-- `(throw 'syntax-error (list at pat))` -/
  | error (start : Nat) (p : Pattern N)
  | timeout

/-- The text between two positions. -/
def between (text : List Char) (p q : Nat) : List Char := (text.drop p).take (q - p)

variable {N A U : Type}

def Outcome.bind : Outcome N U → (Nat → Datum → State N U → Outcome N U) → Outcome N U
  | ok stop d st, f => f stop d st
  | fail st, _ => fail st
  | error start p, _ => error start p
  | timeout, _ => timeout

def Outcome.orElse : Outcome N U → (State N U → Outcome N U) → Outcome N U
  | fail st, f => f st
  | o, _ => o

/-! ## Trees -/

def symbolOf (s : String) : Datum := .symbol s.toList

/-- `single-filter` -/
def singleFilter : Datum → Datum
  | .list [d] => d
  | d => d

/-- `push-not-null!`, at the end instead of the front of a list that is reversed. -/
def pushNotNull (body : List Datum) : Datum → List Datum
  | .list [] => body
  | d => body ++ [d]

/-- `(cond ((not (list? body)) (list name body)) ...)` -/
def tagged (name body : Datum) (annotate : List Datum) : Datum :=
  match body with
  | .list [] => .list (name :: annotate)
  | .list (.symbol s :: ds) => .list (name :: .list (.symbol s :: ds) :: annotate)
  | .list ds => .list (name :: ds ++ annotate)
  | d => .list (name :: d :: annotate)

/-- `cg-generic-ret` -/
def genericRet (accum : Accum) (name : String) (body : List Datum) : Datum :=
  match accum with
  | .all => if body.isEmpty then symbolOf name else tagged (symbolOf name) (.list body) []
  | .name => symbolOf name
  | .body => singleFilter (.list body)
  | .none => .list []

/-- What is kept of characters. -/
def leaf (accum : Accum) (name : String) (s : List Char) : Datum :=
  match accum with
  | .all => .list [symbolOf name, .string s]
  | .name => symbolOf name
  | .body => .string s
  | .none => .list []

def location (start stop : Nat) : Datum := .list [symbolOf "location", .number start, .number stop]

/-- `annotate`: the comment that was skipped from `start` to `first`, and where the nonterminal is. -/
def annotate (locations : Bool) (comment : Datum) (start first stop : Nat) : List Datum :=
  match locations, comment with
  | true, .list [] => [location first stop]
  | true, c => [.list [symbolOf "comment", .list [c], location start first], location first stop]
  | false, .list [] => []
  | false, c => [.list [symbolOf "comment", .list [c]]]

/-- The tree that `wrap-parser-for-users` gives. -/
def wrapped (accum : Accum) (name : List Char) (body : Datum) (annotate : List Datum) : Datum :=
  match accum with
  | .name => .symbol name
  | .all => tagged (.symbol name) body annotate
  | .none => .list []
  | .body => body

/-! ## Parsers -/

/-- `cg-and-int` -/
def runAnd (f : Pattern N → Nat → State N U → Outcome N U) (accum : Accum) :
    List (Pattern N) → Nat → List Datum → State N U → Outcome N U
  | [], pos, body, st => .ok pos (genericRet accum "cg-and" body) st
  | p :: ps, pos, body, st =>
    (f p pos st).bind fun stop d st => runAnd f accum ps stop (pushNotNull body (singleFilter d)) st

/-- `cg-or-int` -/
def runOr (f : Pattern N → Nat → State N U → Outcome N U) : List (Pattern N) → Nat → State N U → Outcome N U
  | [], _, st => .fail st
  | p :: ps, pos, st => (f p pos st).orElse (runOr f ps pos)

/-- One turn of a repetition: what comes no further is not counted and dropped, and so is a failure. -/
def turn (f : Nat → State N U → Outcome N U) (further : Nat → Datum → State N U → Outcome N U)
    (done : State N U → Outcome N U) (pos : Nat) (st : State N U) : Outcome N U :=
  match f pos st with
  | .ok stop d st => if pos < stop then further stop d st else done st
  | .fail st => done st
  | .error start p => .error start p
  | .timeout => .timeout

/-- The loop of `cg-*` and `cg-+`. -/
def loop (f : Nat → State N U → Outcome N U) (ret : Nat → Nat → List Datum → State N U → Outcome N U) :
    Nat → Nat → Nat → List Datum → State N U → Outcome N U
  | 0, _, _, _, _ => .timeout
  | fuel + 1, pos, count, body, st =>
    turn f (fun stop d st => loop f ret fuel stop (count + 1) (pushNotNull body (singleFilter d)) st)
      (ret pos count body) pos st

/-- `wrap-parser-for-users` -/
def wrap (input : Input N) (accum : Accum) (name : List Char) (skip f : Nat → State N U → Outcome N U)
    (pos : Nat) (st : State N U) : Outcome N U :=
  (skip pos st).bind fun first comment st => (f first st).bind fun stop body st =>
    .ok stop (wrapped accum name body (annotate input.locations comment pos first stop)) st

variable [DecidableEq N]

/-- `vector-set!` in the table of `n`. -/
def State.set (st : State N U) (n : N) (slot : Nat) (e : Entry) : State N U :=
  { st with cache := fun m i => if m = n ∧ i = slot then some e else st.cache m i }

/-- What was found in a table. -/
def Outcome.ofRes (st : State N U) : Option (Nat × Datum) → Outcome N U
  | some (stop, d) => .ok stop d st
  | none => .fail st

def cacheSize : Nat := 512

/-- Calculate it and cache it; an error is not cached. -/
def Outcome.store (n : N) (str pos : Nat) : Outcome N U → Outcome N U
  | .ok stop d st => .ok stop d (st.set n (pos % cacheSize) ⟨str, pos, some (stop, d)⟩)
  | .fail st => .fail (st.set n (pos % cacheSize) ⟨str, pos, none⟩)
  | o => o

/-- What the table of `n` has for a text and a position. -/
def State.find (st : State N U) (n : N) (str pos : Nat) : Option (Option (Nat × Datum)) :=
  match st.cache n (pos % cacheSize) with
  | some e => if e.str = str ∧ e.start = pos then some e.res else none
  | none => none

/-- `cg-cached-parser` -/
def cachedParser (n : N) (str : Nat) (f : Nat → State N U → Outcome N U) (pos : Nat) (st : State N U) : Outcome N U :=
  match st.find n str pos with
  | some res => .ofRes st res
  | none => (f pos st).store n str pos

/-- The parser of a pattern; `cached` is whether nonterminals keep their results. -/
abbrev Parser (N U : Type) := Input N → Pattern N → Accum → Nat → State N U → Outcome N U

/-- `%peg:skip?` -/
def skipParser (f : Parser N U) (input : Input N) (pos : Nat) (st : State N U) : Outcome N U :=
  match input.skip with
  | none => .ok pos (.list []) st
  | some p => f input (.star p) .all pos st

/-- What is parsed for an identifier. -/
def runSym (G : Grammar N A U) (cached : Bool) (f : Parser N U) (input : Input N) (n : N) (pos : Nat)
    (st : State N U) : Outcome N U :=
  match G.rule n with
  | .peg accum p =>
    let parser := wrap input accum (G.symbol n) (skipParser f input) (f input p accum)
    if cached then cachedParser n input.str parser pos st else parser pos st
  | .skip accum p => f input p accum pos st
  | .proc (.act a) =>
    match G.act a [] st.user with
    | some u => .ok pos (.list []) { st with user := u }
    | none => .fail st
  | .proc (.named m a) =>
    (f input (.sym m) .body pos st).bind fun stop d st =>
      match G.act a (between input.text pos stop) st.user with
      | some u => .ok stop d { st with user := u }
      | none => .fail st
  | .proc (.noSkip m) => f { input with skip := none } (.sym m) .body pos st

/-- One level of `compile-peg-pattern`, with the parsers of smaller patterns. -/
def step (G : Grammar N A U) (cached : Bool) (f : Parser N U) : Parser N U
  | input, pattern, accum, pos, st =>
    let accum' := accum.builtinFilter
    let rounds := loop (N := N) (U := U)
    match pattern with
    | .any =>
      if pos < input.text.length then .ok (pos + 1) (leaf accum' "cg-peg-any" (between input.text pos (pos + 1))) st
      else .fail st
    | .sym n => runSym G cached f input n pos st
    | .str s =>
      if between input.text pos (pos + s.length) = s then .ok (pos + s.length) (leaf accum' "cg-string" s) st
      else .fail st
    | .range first last =>
      match input.text[pos]? with
      | some c => if first ≤ c ∧ c ≤ last then .ok (pos + 1) (leaf accum "cg-range" [c]) st else .fail st
      | none => .fail st
    | .ignore p => f input p .none pos st
    | .capture p => f input p .body pos st
    | .and ps => runAnd (fun p => f input p accum') accum' ps pos [] st
    | .or ps => runOr (fun p => f input p accum') ps pos st
    | .star p =>
      rounds (f input p accum') (fun stop _ body st => .ok stop (genericRet accum' "cg-body" body) st)
        (input.text.length + 1) pos 0 [] st
    | .plus p =>
      rounds (f input p accum') (fun stop count body st =>
        if 1 ≤ count then .ok stop (genericRet accum' "cg-body" body) st else .fail st)
        (input.text.length + 1) pos 0 [] st
    | .opt p =>
      turn (f input p accum')
        (fun stop d st => .ok stop (genericRet accum' "cg-body" (pushNotNull [] (singleFilter d))) st)
        (fun st => .ok pos (genericRet accum' "cg-body" []) st) pos st
    | .followedBy p =>
      turn (f input p accum') (fun _ _ st => .ok pos (genericRet accum' "cg-body" []) st) .fail pos st
    | .notFollowedBy p =>
      turn (f input p accum') (fun _ _ st => .fail st) (fun st => .ok pos (genericRet accum' "cg-body" []) st) pos st
    | .expect p => (f input p accum' pos st).orElse fun _ => .error pos p

def run (G : Grammar N A U) (cached : Bool) : Nat → Parser N U
  | 0 => fun _ _ _ _ _ => .timeout
  | fuel + 1 => step G cached (run G cached fuel)

/-! ## Texts -/

/-- All strings of a list, one after the other; `none` when not all are strings. -/
def appendStrings : List Datum → Option (List Char)
  | [] => some []
  | .string s :: ds => (appendStrings ds).map (s ++ ·)
  | _ => none

/-- `string-group`: strings next to each other make a list, with what is in a list that starts with a string behind
them. -/
def stringGroup : List Datum → List Datum
  | [] => []
  | .string s :: ds =>
    match stringGroup ds with
    | .list (.string t :: us) :: rest => .list (.string s :: .string t :: us) :: rest
    | rest => .list [.string s] :: rest
  | d :: ds => d :: stringGroup ds

/-- A list of strings as one string. -/
def joinStrings : Datum → Datum
  | .list (d :: ds) => ((appendStrings (d :: ds)).map Datum.string).getD (.list (d :: ds))
  | d => d

mutual
def stringCollapse : Datum → Datum
  | .list ds => singleFilter (.list ((stringGroup (stringCollapseAll ds)).map joinStrings))
  | d => d

def stringCollapseAll : List Datum → List Datum
  | [] => []
  | d :: ds => stringCollapse d :: stringCollapseAll ds
end

/-- Tables in which nothing is kept. -/
def State.init (u : U) : State N U := ⟨fun _ _ => none, u⟩

/-- `match-pattern` -/
def matchPattern (G : Grammar N A U) (cached : Bool) (fuel : Nat) (input : Input N) (n : N) (st : State N U) :
    Outcome N U :=
  (run G cached fuel input (.sym n) .body 0 st).bind fun stop d st => .ok stop (stringCollapse d) st

end Dezyne.Peg
