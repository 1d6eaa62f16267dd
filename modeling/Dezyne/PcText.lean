import Dezyne.Completion
import Dezyne.Lib.Lines
/-!
# The text of a program counter

The text has a line for each of its parts, and a heading before some of them. A
heading ends in a colon, and no other line does; so the text tells whether there
is something under a heading. A space comes only before a quote or a bracket, or
with a bracket or a position in a file behind it.
-/

namespace Dezyne.Explore

open Lines

/-! ## Parts of a text -/

/-- A colon is not the end of a line. -/
def GoesOn (s : List Char) : Prop := ∃ c t, s = c :: t ∧ c ≠ '\n'

/-- What comes behind a space. -/
def Marked (s : List Char) : Prop :=
  s.head? = some '(' ∨ s.head? = some '"' ∨ ']' ∈ s ∨
    ∃ a c d b, s = a ++ c :: ':' :: d :: b ∧ c.isDigit = true ∧ d.isDigit = true

theorem goesOn_stable : Stable GoesOn := by
  rintro y t ⟨c, s, rfl, hc⟩
  exact ⟨c, s ++ t, rfl, hc⟩

theorem marked_stable : Stable Marked := by
  rintro y t (h | h | h | ⟨a, c, d, b, rfl, hc, hd⟩)
  · exact .inl (by cases y with | nil => cases h | cons c y => exact h)
  · exact .inr (.inl (by cases y with | nil => cases h | cons c y => exact h))
  · exact .inr (.inr (.inl (List.mem_append_left t h)))
  · exact .inr (.inr (.inr ⟨a, c, d, b ++ t, by simp, hc, hd⟩))

/-- A part of a text that is not a heading. -/
structure Part (s : String) : Prop where
  colon : Lines.Follows ':' GoesOn s.toList
  space : Lines.Follows ' ' Marked s.toList

/-- A name: an identifier, also with dots, or an enum and its field. -/
structure Word (s : String) : Prop where
  space : ' ' ∉ s.toList
  newline : '\n' ∉ s.toList
  colon : s.toList.getLast? ≠ some ':'

section
variable {s t : String}

theorem Part.append (hs : Part s) (ht : Part t) : Part (s ++ t) where
  colon := by
    rw [String.toList_append]
    exact hs.colon.append goesOn_stable ht.colon
  space := by
    rw [String.toList_append]
    exact hs.space.append marked_stable ht.space

theorem Part.intercalate (ht : Part t) {l : List String} (hl : ∀ s ∈ l, Part s) : Part (t.intercalate l) where
  colon := by
    rw [String.toList_intercalate]
    exact .intercalate goesOn_stable ht.colon (by simpa using fun s hs => (hl s hs).colon)
  space := by
    rw [String.toList_intercalate]
    exact .intercalate marked_stable ht.space (by simpa using fun s hs => (hl s hs).space)

/-- Without a newline, only the last colon can be at the end of a line. -/
theorem follows_goesOn {s : List Char} (hnewline : '\n' ∉ s) (hlast : s.getLast? ≠ some ':') :
    Lines.Follows ':' GoesOn s := by
  rintro x y rfl
  cases y with
  | nil => simp at hlast
  | cons c y =>
    refine ⟨c, y, rfl, ?_⟩
    rintro rfl
    simp at hnewline

theorem Word.part (h : Word s) : Part s where
  colon := follows_goesOn h.newline h.colon
  space := .of_not_mem h.space

theorem word_of_plain (h : ∀ c ∈ s.toList, c ≠ ' ' ∧ c ≠ '\n' ∧ c ≠ ':') : Word s where
  space := fun hc => (h _ hc).1 rfl
  newline := fun hc => (h _ hc).2.1 rfl
  colon := fun hc => (h _ (List.mem_of_getLast? hc)).2.2 rfl

end

/-! ## Program counters with well-formed names -/

/-- `ast:location->string` -/
def IsLocation (s : String) : Prop :=
  ∃ (file : String) (line column : Nat), '\n' ∉ file.toList ∧
    s = file ++ ":" ++ toString line ++ ":" ++ toString column

structure Instance.Named (i : Instance) : Prop where
  path : ∀ s ∈ i.path, Word s

structure Trigger.Named (t : Trigger) : Prop where
  port : ∀ s ∈ t.portName, Word s
  event : Word t.eventName

structure Statement.Named (s : Statement) : Prop where
  trigger : s.trigger.Named
  location : ∀ l ∈ s.location, IsLocation l

structure State.Named (s : State) : Prop where
  inst : s.inst.Named
  q : ∀ t ∈ s.q, t.Named
  vars : ∀ v ∈ s.vars, Word v.1 ∧ '\n' ∉ v.2.sexp.toList

/-- What a text has of a coroutine. -/
structure CoroutineNamed (x : Instance × ProgramCounter) : Prop where
  port : x.1.Named
  inst : ∀ i ∈ x.2.inst, i.Named
  statement : ∀ s ∈ x.2.statement, s.Named
  stack : ∀ p ∈ x.2.stack, ∀ s ∈ p.statement, s.Named
  caller : ∀ t ∈ x.2.previous.bind ProgramCounter.trigger, t.Named

/-- What a text has of a program counter, but for what is deferred. -/
structure ProgramCounter.Named (pc : ProgramCounter) : Prop where
  state : ∀ s ∈ pc.state, s.Named
  inst : ∀ i ∈ pc.inst, i.Named
  statement : ∀ s ∈ pc.statement, s.Named
  triggers : ∀ t ∈ pc.rtcTriggers, t.Named
  blocked : ∀ x ∈ pc.blocked, CoroutineNamed x
  collateral : ∀ x ∈ pc.collateral, CoroutineNamed x
  collateralInstance : ∀ i ∈ pc.collateralInstance, i.Named
  released : ∀ i ∈ pc.released, i.Named
  collateralReleased : ∀ i ∈ pc.collateralReleased, i.Named
  externalQ : ∀ q ∈ pc.externalQ, q.1.Named ∧ ∀ t ∈ q.2, t.Named

/-- The names of a program counter and of what it deferred are well-formed. -/
structure ProgramCounter.WellNamed (pc : ProgramCounter) : Prop where
  own : pc.Named
  deferred : ∀ d ∈ pc.defer, d.Named

/-! ## The parts are in order -/

/-- With a bracket or a position at the end, all spaces before are marked. -/
theorem follows_marked {s t : List Char} (hspace : ' ' ∉ t)
    (ht : ']' ∈ t ∨ ∃ a c d b, t = a ++ c :: ':' :: d :: b ∧ c.isDigit = true ∧ d.isDigit = true) :
    Lines.Follows ' ' Marked (s ++ t) := by
  intro x y heq
  rcases List.append_eq_append_iff.1 heq with ⟨a, -, rfl⟩ | ⟨b, -, hy⟩
  · simp at hspace
  · cases b with
    | nil =>
      obtain rfl : ' ' :: y = t := hy
      simp at hspace
    | cons e b =>
      obtain ⟨-, rfl⟩ := List.cons.inj hy
      rcases ht with ht | ⟨a, c, d, b', rfl, hc, hd⟩
      · exact .inr (.inr (.inl (List.mem_append_right b ht)))
      · exact .inr (.inr (.inr ⟨b ++ a, c, d, b', by simp, hc, hd⟩))

theorem toString_digits (n : Nat) : ∃ d ds, (toString n).toList = d :: ds ∧ ∀ c ∈ d :: ds, c.isDigit = true := by
  have hlist : (toString n).toList = Nat.toDigits 10 n := Nat.toList_repr
  cases hdigits : Nat.toDigits 10 n with
  | nil => exact absurd hdigits Nat.toDigits_ne_nil
  | cons d ds =>
    refine ⟨d, ds, hlist.trans hdigits, fun c hc => ?_⟩
    rw [← hdigits] at hc
    exact Nat.isDigit_of_mem_toDigits (by omega) (by omega) hc

theorem IsLocation.part {s : String} (h : IsLocation s) : Part s := by
  obtain ⟨file, line, column, hfile, rfl⟩ := h
  obtain ⟨d, ds, hline, hd⟩ := toString_digits line
  obtain ⟨e, es, hcolumn, he⟩ := toString_digits column
  have hlist : (file ++ ":" ++ toString line ++ ":" ++ toString column).toList =
      file.toList ++ (':' :: d :: ds ++ ':' :: e :: es) := by
    simp only [String.toList_append, hline, hcolumn]
    simp
  have hdigit : ∀ c, c.isDigit = false → c ∉ d :: ds ∧ c ∉ e :: es := by
    intro c hc
    exact ⟨fun hmem => by simp [hd c hmem] at hc, fun hmem => by simp [he c hmem] at hc⟩
  obtain ⟨hspace, hspace'⟩ := hdigit ' ' (by decide)
  obtain ⟨hnewline, hnewline'⟩ := hdigit '\n' (by decide)
  obtain ⟨hcolon, hcolon'⟩ := hdigit ':' (by decide)
  constructor
  · rw [hlist]
    refine follows_goesOn ?_ fun hlast => ?_
    · simp only [List.mem_append, List.mem_cons, not_or] at *
      simp_all
    · rw [List.getLast?_append, List.getLast?_append, List.getLast?_cons_cons] at hlast
      have hmem := List.mem_of_getLast? (l := e :: es) (a := ':') (by
        cases hes : (e :: es).getLast? with
        | none => simp at hes
        | some c => simpa [hes] using hlast)
      exact hcolon' hmem
  · have hlast := List.dropLast_append_getLast (List.cons_ne_nil d ds)
    have hposition : ':' :: d :: ds ++ ':' :: e :: es =
        ':' :: (d :: ds).dropLast ++ (d :: ds).getLast (List.cons_ne_nil d ds) :: ':' :: e :: es := by
      conv_lhs => rw [List.cons_append, ← hlast]
      simp
    rw [hlist]
    refine follows_marked ?_ (.inr ⟨_, _, e, es, hposition, hd _ (List.getLast_mem _), he e List.mem_cons_self⟩)
    simp only [List.mem_append, List.mem_cons, not_or] at *
    simp_all

theorem part_bracket {s : String} (h : Lines.Follows ':' GoesOn (s ++ "]").toList) : Part (s ++ "]") where
  colon := h
  space := by
    rw [String.toList_append]
    exact follows_marked (by decide) (.inl (by decide))

theorem part_word {s : String} (h : ∀ c ∈ s.toList, c ≠ ' ' ∧ c ≠ '\n' ∧ c ≠ ':') : Part s := (word_of_plain h).part

theorem part_dot : Part "." := part_word (by decide)

theorem part_empty : Part "" := part_word (by decide)

section
variable {i : Instance} {t : Trigger} {s : Statement}

theorem Instance.Named.dottedName (h : i.Named) : Part i.dottedName :=
  part_dot.intercalate fun s hs => (h.path s hs).part

theorem Instance.Named.text (h : i.Named) : Part i.text := by
  refine part_dot.intercalate fun s hs => ?_
  split at hs
  · rcases List.mem_cons.1 hs with rfl | hs
    · exact part_word (by decide)
    · exact (h.path s hs).part
  · exact (h.path s hs).part

theorem Trigger.Named.text (h : t.Named) : Part t.text := by
  have hevent : Part (if t.eventName = "void" then "return" else t.eventName) := by
    split
    · exact part_word (by decide)
    · exact h.event.part
  unfold Trigger.text
  cases hport : t.portName with
  | none => exact hevent
  | some port => exact ((h.port port hport).part.append part_dot).append hevent

theorem Statement.Named.triggerText (h : s.Named) : Part s.triggerText := by
  unfold Statement.triggerText
  split
  · exact part_word (by decide)
  · exact part_word (by decide)
  · exact h.trigger.text

/-- What is after a slash is the end of the text. -/
theorem afterSlash_suffix (s : String) : ∃ x, s.toList = x ++ (afterSlash s).toList := by
  have hne := List.splitOn_ne_nil '/' s.toList
  have hlast : (afterSlash s).toList = (s.toList.splitOn '/').getLast hne := by
    rw [afterSlash, List.getLast?_eq_some_getLast hne]
    simp
  obtain ⟨x, hx⟩ := intercalate_concat (s := (s.toList.splitOn '/').getLast hne) (t := ['/'])
    (s.toList.splitOn '/').dropLast
  rw [List.dropLast_append_getLast hne, List.intercalate_splitOn] at hx
  exact ⟨x, by rw [hlast, ← hx]⟩

theorem IsLocation.afterSlash {l : String} (h : IsLocation l) : Part (afterSlash l) := by
  obtain ⟨x, hx⟩ := afterSlash_suffix l
  obtain ⟨hcolon, hspace⟩ := h.part
  rw [hx] at hcolon hspace
  exact ⟨hcolon.suffix, hspace.suffix⟩

/-! ### States and queues -/

/-- A variable or the queue of a state: a name with what it holds. -/
def Assigned (v : String) : Prop := ∃ name value, v = name ++ ("=" ++ value) ∧ Part name ∧ '\n' ∉ value.toList

/-- The variables of a state, up to the bracket. -/
theorem follows_vars {l : List String} (hl : ∀ v ∈ l, Assigned v) :
    Lines.Follows ':' GoesOn (",\n".intercalate l ++ "]").toList := by
  have hvalue : ∀ (value : String) (e : Char), '\n' ∉ value.toList → e ≠ '\n' → e ≠ ':' →
      Lines.Follows ':' GoesOn (value.toList ++ [e]) := by
    intro value e hnewline he he'
    refine follows_goesOn ?_ (by simpa using he')
    simp [hnewline, Ne.symm he]
  induction l with
  | nil => exact .of_not_mem (by decide)
  | cons v l ih =>
    obtain ⟨name, value, rfl, hname, hnewline⟩ := hl v List.mem_cons_self
    have heq : Lines.Follows ':' GoesOn (name.toList ++ "=".toList) :=
      hname.colon.append goesOn_stable (.of_not_mem (by decide))
    cases l with
    | nil =>
      have h := heq.append goesOn_stable (hvalue value ']' hnewline (by decide) (by decide))
      simpa using h
    | cons v' l =>
      have hrest := ih fun x hx => hl x (List.mem_cons_of_mem _ hx)
      have h := (heq.append goesOn_stable (hvalue value ',' hnewline (by decide) (by decide))).append goesOn_stable
        ((follows_cons (d := '\n') (by decide)).2 hrest)
      rw [String.intercalate_cons_cons]
      simpa using h

theorem Trigger.Named.newline (h : t.Named) : '\n' ∉ t.text.toList := by
  have hevent : '\n' ∉ (if t.eventName = "void" then "return" else t.eventName).toList := by
    split
    · decide
    · exact h.event.newline
  unfold Trigger.text
  cases hport : t.portName with
  | none => exact hevent
  | some port =>
    have hword := (h.port port hport).newline
    simp only [String.toList_append, List.mem_append, not_or]
    exact ⟨⟨hword, by decide⟩, hevent⟩

theorem part_state {path vars : List String} (handling : Bool) (hpath : ∀ s ∈ path, Word s)
    (hvars : ∀ v ∈ vars, Assigned v) :
    Part (".".intercalate path ++ (if path = [] then "" else ":") ++ "[" ++ ",\n".intercalate vars ++ "]" ++
      if handling then "\nhandling" else "") := by
  have hname : Part (".".intercalate path) := part_dot.intercalate fun s hs => (hpath s hs).part
  have hopen : Part ((if path = [] then "" else ":") ++ "[") := by
    split
    · exact part_word (by decide)
    · exact ⟨follows_goesOn (by decide) (by decide), .of_not_mem (by decide)⟩
  have hclose := part_bracket (follows_vars hvars)
  have hend : Part (if handling then "\nhandling" else "") := by
    split
    · exact ⟨.of_not_mem (by decide), .of_not_mem (by decide)⟩
    · exact part_empty
  have hall := ((hname.append hopen).append hclose).append hend
  simpa only [String.append_assoc] using hall

theorem State.Named.text {s : State} (h : s.Named) : ∀ t ∈ s.text, Part t := by
  intro t ht
  unfold State.text at ht
  extract_lets path vars vars' at ht
  have hpath : ∀ w ∈ path, Word w := by
    intro w hw
    simp only [path] at hw
    split at hw
    · rename_i rest hrest
      split at hw
      · rcases List.mem_singleton.1 hw with rfl
        exact h.inst.path "sut" (by simp [hrest])
      · exact h.inst.path w (by simp [hrest, hw])
    · exact h.inst.path w hw
  have hvars : ∀ v ∈ vars, Assigned v := by
    intro v hv
    obtain ⟨x, hx, rfl⟩ := List.mem_map.1 hv
    obtain ⟨hname, hvalue⟩ := h.vars x hx
    exact ⟨x.1, x.2.sexp, String.append_assoc, hname.part, hvalue⟩
  have hvars' : ∀ v ∈ vars', Assigned v := by
    intro v hv
    simp only [vars'] at hv
    split at hv
    · exact hvars v hv
    · rcases List.mem_cons.1 hv with rfl | hv
      · refine ⟨"q", ",".intercalate (s.q.map Trigger.text), rfl, part_word (by decide), fun hmem => ?_⟩
        rw [String.toList_intercalate] at hmem
        rcases mem_of_mem_intercalate hmem with hmem | ⟨x, hx, hmem⟩
        · exact absurd hmem (by decide)
        · simp only [List.map_map, List.mem_map, Function.comp] at hx
          obtain ⟨t, ht, rfl⟩ := hx
          exact (h.q t ht).newline hmem
      · exact hvars v hv
  split at ht
  · obtain rfl := Option.mem_some.1 ht
    exact part_state s.handling.isSome hpath hvars'
  · cases ht

theorem part_newline : Part "\n" := ⟨.of_not_mem (by decide), .of_not_mem (by decide)⟩

theorem part_stateText {state : List State} (h : ∀ s ∈ state, s.Named) : Part (stateText state) := by
  refine part_newline.intercalate fun t ht => ?_
  obtain ⟨s, hs, hst⟩ := List.mem_filterMap.1 ht
  exact (h s hs).text t hst

/-- Quoted texts with spaces between them. -/
theorem follows_quoted {l : List (List Char)} (hl : ∀ s ∈ l, s.head? = some '"' ∧ Lines.Follows ' ' Marked s) :
    Lines.Follows ' ' Marked ([' '].intercalate l) := by
  induction l with
  | nil => simp
  | cons s l ih =>
    cases l with
    | nil => simpa using (hl s List.mem_cons_self).2
    | cons s' l =>
      have hrest := ih fun x hx => hl x (List.mem_cons_of_mem s hx)
      have hquote : ([' '].intercalate (s' :: l)).head? = some '"' := by
        have hhead := (hl s' (by simp)).1
        cases l <;> cases s' <;> simp_all
      rw [List.intercalate_cons_cons, List.append_assoc]
      exact (hl s List.mem_cons_self).2.append marked_stable (hrest.cons_self (.inr (.inl hquote)))

theorem part_quoted {l : List String} (hl : ∀ s ∈ l, s.toList.head? = some '"' ∧ Part s) :
    Part (" ".intercalate l) where
  colon := by
    rw [String.toList_intercalate]
    exact .intercalate goesOn_stable (.of_not_mem (by decide)) (by simpa using fun s hs => (hl s hs).2.colon)
  space := by
    rw [String.toList_intercalate]
    exact follows_quoted (by simpa using fun s hs => ⟨(hl s hs).1, (hl s hs).2.space⟩)

theorem part_write {s : String} (h : Part s) : Part ("\"" ++ s ++ "\"") :=
  ((part_word (by decide)).append h).append (part_word (by decide))

theorem Instance.Named.name (h : i.Named) : Part i.name := by
  unfold Instance.name
  split
  · exact part_word (by decide)
  · exact h.dottedName

theorem Trigger.Named.queueText (h : t.Named) : Part t.queueText := by
  unfold Trigger.queueText
  cases hport : t.portName with
  | none => exact h.event.part
  | some port => exact ((h.port port hport).part.append part_dot).append h.event.part

theorem part_externalQText {externalQ : List (Instance × List Trigger)}
    (h : ∀ q ∈ externalQ, q.1.Named ∧ ∀ t ∈ q.2, t.Named) : Part (externalQText externalQ) := by
  have hparen : Lines.Follows ' ' Marked ['('] := .of_not_mem (by decide)
  have hopen : Part " (" := ⟨.of_not_mem (by decide), hparen.cons_self (.inl rfl)⟩
  have hhead : ∀ s t : String, ("\"" ++ s ++ "\"" ++ t).toList.head? = some '"' := by
    intro s t
    simp
  have hqueue : ∀ q ∈ externalQ, Part ("\"" ++ q.1.name ++ "\"" ++ (" (" ++
      " ".intercalate (q.2.map fun t => "\"" ++ t.queueText ++ "\"") ++ ")")) := by
    intro q hq
    obtain ⟨hname, htriggers⟩ := h q hq
    refine (part_write hname.name).append ((hopen.append (part_quoted fun s hs => ?_)).append (part_word (by decide)))
    obtain ⟨t, ht, rfl⟩ := List.mem_map.1 hs
    exact ⟨by simp, part_write (htriggers t ht).queueText⟩
  refine ((part_word (by decide)).append (part_quoted fun s hs => ?_)).append (part_word (by decide))
  obtain ⟨q, hq, rfl⟩ := List.mem_map.1 hs
  have hq' := hqueue q hq
  simp only [String.append_assoc] at hq' ⊢
  exact ⟨by simp, hq'⟩

/-! ## The lines -/

/-- The headings that are not looked for. -/
def otherHeadings : List String := ["instance:", "statement:", "at:", "triggers:", "collateral:", "blocked-instances:",
  "collateral-instances:", "collateral-instance:", "released:", "collateral-released:", "blocked-on-boundary:",
  "ext-q:"]

/-- Neither of the two headings that are looked for. -/
def Pieces (l : List String) : Prop := ∀ s ∈ l, Part s ∨ s ∈ otherHeadings

theorem Pieces.append {l l' : List String} (h : Pieces l) (h' : Pieces l') : Pieces (l ++ l') := by
  intro s hs
  rcases List.mem_append.1 hs with hs | hs
  · exact h s hs
  · exact h' s hs

theorem pieces_flatten {l : List (List String)} (h : ∀ x ∈ l, Pieces x) : Pieces l.flatten := by
  intro s hs
  obtain ⟨x, hx, hs⟩ := List.mem_flatten.1 hs
  exact h x hx s hs

theorem pieces_heading {α : Type} {s : String} {l : List α} (h : s ∈ otherHeadings) : Pieces (heading s l) := by
  intro t ht
  unfold heading at ht
  split at ht
  · cases ht
  · exact .inr (by rwa [List.mem_singleton.1 ht])

theorem pieces_map {α : Type} {f : α → String} {l : List α} (h : ∀ x ∈ l, Part (f x)) : Pieces (l.map f) := by
  intro s hs
  obtain ⟨x, hx, rfl⟩ := List.mem_map.1 hs
  exact .inl (h x hx)

theorem part_getD {α : Type} {f : α → String} {o : Option α} (h : ∀ x ∈ o, Part (f x)) :
    Part ((o.map f).getD "") := by
  cases o with
  | none => exact part_empty
  | some x => exact h x rfl

section
variable {pcs : List (Instance × ProgramCounter)}

theorem pieces_locationTexts (h : ∀ x ∈ pcs, CoroutineNamed x) : Pieces (locationTexts pcs) := by
  intro t ht
  obtain ⟨s, hs, hst⟩ := List.mem_filterMap.1 ht
  obtain ⟨x, hx, hs⟩ := List.mem_flatMap.1 hs
  obtain ⟨p, hp, hps⟩ := List.mem_filterMap.1 hs
  obtain ⟨l, hl, rfl⟩ := Option.map_eq_some_iff.1 hst
  exact .inl (((h x hx).stack p hp s hps).location l hl).afterSlash

theorem pieces_callerTexts (h : ∀ x ∈ pcs, CoroutineNamed x) : Pieces (callerTexts pcs) := by
  intro s hs
  obtain ⟨x, hx, hst⟩ := List.mem_filterMap.1 hs
  obtain ⟨t, ht, rfl⟩ := Option.map_eq_some_iff.1 hst
  exact .inl ((h x hx).caller t ht).text

theorem pieces_ports (h : ∀ x ∈ pcs, CoroutineNamed x) : Pieces (pcs.map fun x => x.1.dottedName) :=
  pieces_map fun x hx => (h x hx).port.dottedName

theorem pieces_instances (h : ∀ x ∈ pcs, CoroutineNamed x) :
    Pieces (pcs.map fun x => (x.2.inst.map Instance.dottedName).getD "") :=
  pieces_map fun x hx => part_getD fun i hi => ((h x hx).inst i hi).dottedName

end

variable {pc : ProgramCounter}

/-- The lines of a text before those of what is blocked. -/
def ProgramCounter.partsBefore (pc : ProgramCounter) : List String :=
  stateText pc.state :: (pc.statementTexts ++ heading "triggers:" pc.rtcTriggers ++ pc.rtcTriggers.map Trigger.text)

/-- The lines from the heading of what is blocked up to that of what is deferred. -/
def ProgramCounter.partsAfter (pc : ProgramCounter) : List String := List.flatten [
  pc.blocked.map (fun x => x.1.dottedName), callerTexts pc.blocked,
  heading "collateral:" pc.collateral, pc.collateral.map (fun x => x.1.dottedName), callerTexts pc.collateral,
  heading "blocked-instances:" pc.collateral,
  pc.collateral.map (fun x => (x.2.inst.map Instance.dottedName).getD ""),
  locationTexts pc.blocked, heading "collateral-instances:" pc.collateral,
  pc.collateral.map (fun x => (x.2.inst.map Instance.dottedName).getD ""), locationTexts pc.collateral,
  (pc.collateralInstance.map fun i => ["collateral-instance:", i.text]).getD [],
  heading "released:" pc.released, pc.released.map Instance.dottedName,
  heading "collateral-released:" pc.collateralReleased, pc.collateralReleased.map Instance.dottedName,
  heading "blocked-on-boundary:" pc.blockedOnBoundaryEntries,
  pc.blockedOnBoundaryEntries.map (fun x => (x.2.statement.map Statement.triggerText).getD ""),
  if pc.externalQ.isEmpty then [] else ["ext-q:", externalQText pc.externalQ]]

theorem textWith_eq (h : pc.status = none) (deferTexts : List String) : pc.textWith deferTexts =
    "\n".intercalate (pc.partsBefore ++ heading "blocked:" pc.blocked ++ pc.partsAfter ++
      heading "defer:" deferTexts ++ deferTexts) := by
  unfold ProgramCounter.textWith ProgramCounter.partsBefore ProgramCounter.partsAfter
  rw [h]
  simp only [List.flatten_cons, List.flatten_nil, List.append_nil, List.append_assoc, List.cons_append]

theorem ProgramCounter.Named.statementTexts (h : pc.Named) : Pieces pc.statementTexts := by
  unfold ProgramCounter.statementTexts
  cases hstatement : pc.statement with
  | none => intro s hs; cases hs
  | some s =>
    have hs := h.statement s hstatement
    have hinst : Part ((pc.inst.map Instance.text).getD "") := part_getD fun i hi => (h.inst i hi).text
    have hlocation : Part (s.location.getD "") := by
      cases hl : s.location with
      | none => exact part_empty
      | some l => exact (hs.location l hl).part
    have hplace : ∀ t ∈ otherHeadings, Part t ∨ t ∈ otherHeadings := fun t ht => .inr ht
    simp only
    split
    all_goals
      simp only [Pieces, List.forall_mem_cons, List.not_mem_nil, false_imp_iff, implies_true, and_true]
    · exact ⟨hplace _ (by decide), .inl hinst, hplace _ (by decide), .inl hs.triggerText, hplace _ (by decide),
        .inl hlocation⟩
    · exact ⟨hplace _ (by decide), .inl hinst, hplace _ (by decide), .inl hs.triggerText, hplace _ (by decide),
        .inl hlocation⟩
    · exact ⟨hplace _ (by decide), .inl hinst, hplace _ (by decide), .inl hlocation⟩
    · exact ⟨hplace _ (by decide), .inl hinst, hplace _ (by decide), .inl hlocation⟩

theorem ProgramCounter.Named.partsBefore (h : pc.Named) : Pieces pc.partsBefore := by
  intro s hs
  rcases List.mem_cons.1 hs with rfl | hs
  · exact .inl (part_stateText h.state)
  · exact ((h.statementTexts.append (pieces_heading (by decide))).append
      (pieces_map fun t ht => (h.triggers t ht).text)) s hs

theorem ProgramCounter.Named.partsAfter (h : pc.Named) : Pieces pc.partsAfter := by
  have hcollateralInstance :
      Pieces ((pc.collateralInstance.map fun i => ["collateral-instance:", i.text]).getD []) := by
    cases hi : pc.collateralInstance with
    | none => intro s hs; cases hs
    | some i =>
      have htext := (h.collateralInstance i hi).text
      intro s hs
      rcases List.mem_cons.1 hs with rfl | hs
      · exact .inr (by decide)
      · rw [List.mem_singleton.1 hs]
        exact .inl htext
  have hexternal : Pieces (if pc.externalQ.isEmpty then [] else ["ext-q:", externalQText pc.externalQ]) := by
    have htext := part_externalQText h.externalQ
    intro s hs
    split at hs
    · cases hs
    · rcases List.mem_cons.1 hs with rfl | hs
      · exact .inr (by decide)
      · rw [List.mem_singleton.1 hs]
        exact .inl htext
  have hboundary :
      Pieces (pc.blockedOnBoundaryEntries.map fun x => (x.2.statement.map Statement.triggerText).getD "") :=
    pieces_map fun x hx => part_getD fun s hs => ((h.blocked x (List.mem_of_mem_filter hx)).statement s hs).triggerText
  have hreleased : ∀ l : List Instance, (∀ i ∈ l, i.Named) → Pieces (l.map Instance.dottedName) :=
    fun l hl => pieces_map fun i hi => (hl i hi).dottedName
  refine pieces_flatten ?_
  simp only [List.forall_mem_cons, List.not_mem_nil, false_imp_iff, implies_true, and_true]
  refine ⟨pieces_ports h.blocked, pieces_callerTexts h.blocked, pieces_heading (by decide), pieces_ports h.collateral,
    pieces_callerTexts h.collateral, pieces_heading (by decide), pieces_instances h.collateral,
    pieces_locationTexts h.blocked, pieces_heading (by decide), pieces_instances h.collateral,
    pieces_locationTexts h.collateral, hcollateralInstance, pieces_heading (by decide), hreleased _ h.released,
    pieces_heading (by decide), hreleased _ h.collateralReleased, pieces_heading (by decide), hboundary, hexternal⟩

/-! ## What a text tells -/

/-- The lines of a text up to what is deferred. -/
def ownLines (s : String) : List (List Char) := (s.toList.splitOn '\n').takeWhile fun line => line ≠ "defer:".toList

theorem otherHeadings_lines : ∀ s ∈ otherHeadings, ∀ line ∈ s.toList.splitOn '\n',
    line ≠ "blocked:".toList ∧ line ≠ "defer:".toList := by
  decide

/-- No line of these parts is a heading that is looked for. -/
theorem Pieces.lines {l : List String} (h : Pieces l) : ∀ line ∈ l.flatMap fun s => s.toList.splitOn '\n',
    line ≠ "blocked:".toList ∧ line ≠ "defer:".toList := by
  intro line hline
  obtain ⟨s, hs, hmem⟩ := List.mem_flatMap.1 hline
  rcases h s hs with hpart | hheading
  · have hend : ∀ l : List Char, line ≠ l ++ [':'] := by
      rintro l rfl
      obtain ⟨x, y, hxy, hy⟩ := exists_of_mem_splitOn hmem
      obtain ⟨c, z, rfl, hc⟩ := hpart.colon (x ++ l) y (by simp [hxy])
      rcases hy with hy | hy
      · cases hy
      · exact hc (Option.some.inj hy)
    exact ⟨hend "blocked".toList, hend "defer".toList⟩
  · exact otherHeadings_lines s hheading line hmem

theorem lines_heading {α : Type} {s : String} (hs : '\n' ∉ s.toList) (l : List α) :
    (heading s l).flatMap (fun s => s.toList.splitOn '\n') = if l.isEmpty then [] else [s.toList] := by
  unfold heading
  split
  · rfl
  · rw [List.flatMap_singleton, List.splitOn_eq_singleton hs]

theorem ownLines_textWith (h : pc.Named) (hs : pc.status = none) (deferTexts : List String) :
    "blocked:".toList ∈ ownLines (pc.textWith deferTexts) ↔ pc.blocked ≠ [] := by
  have hbefore := h.partsBefore.lines
  have hafter := h.partsAfter.lines
  let own := pc.partsBefore ++ heading "blocked:" pc.blocked ++ pc.partsAfter
  have hheading := lines_heading (s := "blocked:") (by decide) pc.blocked
  have hown : ∀ line ∈ own.flatMap fun s => s.toList.splitOn '\n', line ≠ "defer:".toList := by
    intro line hline
    simp only [own, List.flatMap_append, List.mem_append] at hline
    rcases hline with (hline | hline) | hline
    · exact (hbefore line hline).2
    · rw [hheading] at hline
      split at hline
      · cases hline
      · rw [List.mem_singleton.1 hline]
        decide
    · exact (hafter line hline).2
  have hlines : ownLines (pc.textWith deferTexts) = own.flatMap fun s => s.toList.splitOn '\n' := by
    have hne : own ++ heading "defer:" deferTexts ++ deferTexts ≠ [] := by simp [own, ProgramCounter.partsBefore]
    have htext : (pc.textWith deferTexts).toList.splitOn '\n' =
        (own ++ heading "defer:" deferTexts ++ deferTexts).flatMap fun s => s.toList.splitOn '\n' := by
      rw [textWith_eq hs, String.toList_intercalate]
      have hmap : (own ++ heading "defer:" deferTexts ++ deferTexts).map String.toList ≠ [] := by simpa using hne
      exact (splitOn_intercalate hmap).trans (List.flatMap_map _ _ _)
    rw [ownLines, htext, List.append_assoc, List.flatMap_append,
      List.takeWhile_append_of_pos fun line hline => decide_eq_true (hown line hline)]
    have hdeferred : (heading "defer:" deferTexts ++ deferTexts).flatMap (fun s => s.toList.splitOn '\n') =
        (if deferTexts.isEmpty then [] else ["defer:".toList]) ++
          deferTexts.flatMap fun s => s.toList.splitOn '\n' := by
      rw [List.flatMap_append, lines_heading (by decide)]
    rw [hdeferred]
    cases deferTexts with
    | nil => exact List.append_nil _
    | cons t ts =>
      rw [List.isEmpty_cons, if_neg Bool.false_ne_true, List.singleton_append,
        List.takeWhile_cons_of_neg (by rw [decide_eq_true_eq, not_not]), List.append_nil]
  rw [hlines]
  simp only [own, List.flatMap_append, List.mem_append]
  constructor
  · rintro ((hline | hline) | hline) hnil
    · exact (hbefore _ hline).1 rfl
    · simp [heading, hnil] at hline
    · exact (hafter _ hline).1 rfl
  · intro hne
    refine .inl (.inr ?_)
    rw [hheading, if_neg (by simpa using hne)]
    exact List.mem_cons_self

/-- Program counters with the same text are both blocked, or neither. -/
theorem text_blocked {pc pc' : ProgramCounter} (h : pc.Named) (h' : pc'.Named) (hs : pc.status = none)
    (hs' : pc'.status = none) (htext : pc.text = pc'.text) : pc.blocked = [] ↔ pc'.blocked = [] := by
  have hlines := ownLines_textWith h hs (pc.defer.map fun d => { d with defer := [] }.textWith [])
  have hlines' := ownLines_textWith h' hs' (pc'.defer.map fun d => { d with defer := [] }.textWith [])
  rw [← ProgramCounter.text] at hlines hlines'
  rw [htext, hlines'] at hlines
  exact not_iff_not.1 hlines.symm

theorem textWith_marked (h : pc.Named) {deferTexts : List String}
    (hdefer : ∀ t ∈ deferTexts, Lines.Follows ' ' Marked t.toList) :
    Lines.Follows ' ' Marked (pc.textWith deferTexts).toList := by
  cases hs : pc.status with
  | some status =>
    unfold ProgramCounter.textWith
    rw [hs]
    simp only
    split <;> exact .of_not_mem (by decide)
  | none =>
    have hpieces : ∀ l : List String, Pieces l → ∀ s ∈ l, Lines.Follows ' ' Marked s.toList := by
      intro l hl s hs
      rcases hl s hs with hpart | hheading
      · exact hpart.space
      · have hnot : ∀ s ∈ otherHeadings, ' ' ∉ s.toList := by decide
        exact .of_not_mem (hnot s hheading)
    have hheading : ∀ {α : Type} (s : String) (l : List α), ' ' ∉ s.toList →
        ∀ t ∈ heading s l, Lines.Follows ' ' Marked t.toList := by
      intro α s l hs t ht
      unfold heading at ht
      split at ht
      · cases ht
      · rw [List.mem_singleton.1 ht]
        exact .of_not_mem hs
    rw [textWith_eq hs, String.toList_intercalate]
    refine .intercalate marked_stable (.of_not_mem (by decide)) ?_
    simp only [List.forall_mem_map, List.forall_mem_append]
    exact ⟨⟨⟨⟨hpieces _ h.partsBefore, hheading _ _ (by decide)⟩, hpieces _ h.partsAfter⟩, hheading _ _ (by decide)⟩,
      hdefer⟩

theorem stack_eq_nil {pc : ProgramCounter} (h : pc.previous = none) : pc.stack = [] := by
  rw [ProgramCounter.stack]
  split
  · rfl
  · rename_i hsome
    rw [h] at hsome
    cases hsome

theorem rtcTriggers_defer (d : ProgramCounter) : { d with defer := [] }.rtcTriggers = d.rtcTriggers := by
  obtain ⟨inst, previous⟩ := d
  unfold ProgramCounter.rtcTriggers
  rw [ProgramCounter.stack, ProgramCounter.stack]
  cases previous <;> rfl

theorem ProgramCounter.Named.withoutDefer {d : ProgramCounter} (h : d.Named) :
    ProgramCounter.Named { d with defer := [] } where
  state := h.state
  inst := h.inst
  statement := h.statement
  triggers := by
    rw [rtcTriggers_defer]
    exact h.triggers
  blocked := h.blocked
  collateral := h.collateral
  collateralInstance := h.collateralInstance
  released := h.released
  collateralReleased := h.collateralReleased
  externalQ := h.externalQ

/-- In the text of a program counter with well-formed names a bracket, a quote or a position is behind each space. -/
theorem ProgramCounter.WellNamed.text_marked (h : pc.WellNamed) : Lines.Follows ' ' Marked pc.text.toList := by
  refine textWith_marked h.own fun t ht => ?_
  obtain ⟨d, hd, rfl⟩ := List.mem_map.1 ht
  exact textWith_marked (h.deferred d hd).withoutDefer (by simp)

end

end Dezyne.Explore
