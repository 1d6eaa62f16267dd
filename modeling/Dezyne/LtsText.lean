import Dezyne.Construct
/-!
# The text of an LTS

`display-lts` prints an LTS as an AUT file: a header, and a line for each edge.
`aut-text->lts` reads it back. A label is what is between the first comma and the
last one of its line, so that it may itself have commas, quotes and parentheses.
-/

namespace Dezyne

open Lts

/-! ## Printing -/

/-- `number->string` -/
def numberString (n : Nat) : List Char := Nat.toDigits 10 n

/-- `display-edge` -/
def displayEdge (edge : Edge String) : List Char :=
  '(' :: numberString edge.fromState ++ ',' :: '"' :: edge.label.toList ++ '"' :: ',' :: numberString edge.toState ++
    [')', '\n']

/-- `display-lts` -/
def displayLts (lts : Lts) : List Char :=
  let edges := lts.flatMap Node.edges
  ['d', 'e', 's', ' ', '('] ++ numberString lts.initial ++ ',' :: numberString edges.length ++ ',' :: numberString lts.length ++
    [')', '\n'] ++ edges.flatMap displayEdge

/-! ## Reading -/

/-- `string->number` of digits; `none` is an error. -/
def stringNumber (s : List Char) : Option Nat :=
  if s ≠ [] ∧ s.all Char.isDigit then some (Nat.ofDigitChars 10 s 0) else none

/-- `string-index` -/
def stringIndex (text : List Char) (c : Char) : Option Nat :=
  if c ∈ text then some (text.takeWhile (· ≠ c)).length else none

/-- `string-rindex` -/
def stringRindex (text : List Char) (c : Char) : Option Nat :=
  if c ∈ text then some (text.length - 1 - (text.reverse.takeWhile (· ≠ c)).length) else none

/-- `string-copy` with a start and an end -/
def stringCopy (text : List Char) (start stop : Nat) : Option (List Char) :=
  if start ≤ stop ∧ stop ≤ text.length then some ((text.take stop).drop start) else none

/-- `text->edge` -/
def textEdge (text : List Char) : Option (Edge String) := do
  let lastParen := text.length
  let firstComma ← stringIndex text ','
  let lastComma ← stringRindex text ','
  let fromState ← stringNumber (← stringCopy text 1 firstComma)
  let label ← stringCopy text (firstComma + 2) (lastComma - 1)
  let toState ← stringNumber (← stringCopy text (lastComma + 1) (lastParen - 1))
  return makeEdge fromState (String.ofList label) toState false

/-- `([0-9]+)` and the character after it -/
def digitsThen (c : Char) (text : List Char) : Option (List Char × List Char) :=
  match text.takeWhile Char.isDigit, text.dropWhile Char.isDigit with
  | d :: digits, c' :: rest => if c' = c then some (d :: digits, rest) else none
  | _, _ => none

/-- `text->aut-header`: the first state, the number of transitions and the number of states. -/
def textAutHeader (text : List Char) : Option (Nat × Nat × Nat) := do
  let text ← text.dropPrefix? ['d', 'e', 's', ' ', '(']
  let (firstState, text) ← digitsThen ',' text
  let (nrTransitions, text) ← digitsThen ',' text
  let (stateCount, _) ← digitsThen ')' text
  return (← stringNumber firstState, ← stringNumber nrTransitions, ← stringNumber stateCount)

/-- `string-trim-right` of carriage returns -/
def trimRight (line : List Char) : List Char := (line.reverse.dropWhile (· = '\r')).reverse

/-- The states of edges are indices of the vector, which has an initial state. -/
def makeAut (firstState stateCount : Nat) (edges : List (Edge String)) : Option Aut :=
  if h : 0 < stateCount ∧ ∀ e ∈ edges, e.fromState < stateCount ∧ e.toState < stateCount then
    some ⟨firstState, stateCount, edges, h.1, h.2⟩
  else none

/-- The lines of a text that are not empty. -/
def textLines (text : List Char) : List (List Char) :=
  let lines := text.splitOn '\n'
  let lines := lines.map trimRight
  lines.filter (· ≠ [])

/-- `aut-text->lts`; `none` is an error. -/
def autTextLts (pred : Bool) (text : List Char) : Option Lts := do
  let lines := textLines text
  let (firstState, _, stateCount) ← textAutHeader (← lines.head?)
  let edges ← lines.tail.mapM textEdge
  let aut ← makeAut firstState stateCount edges
  if pred then some (constructLtsPred aut) else constructLts aut

/-! ## Numbers -/

section
variable {n : Nat} {text text' a b : List Char} {c : Char}

theorem isDigit_of_mem_numberString (hc : c ∈ numberString n) : c.isDigit = true :=
  Nat.isDigit_of_mem_toDigits (by decide) (by decide) hc

theorem not_mem_numberString (hc : c.isDigit = false) : c ∉ numberString n := by
  intro hmem
  rw [isDigit_of_mem_numberString hmem] at hc
  cases hc

theorem stringNumber_numberString : stringNumber (numberString n) = some n := by
  have hne : numberString n ≠ [] := Nat.toDigits_ne_nil
  have hall : (numberString n).all Char.isDigit = true :=
    List.all_eq_true.2 fun c hc => isDigit_of_mem_numberString hc
  unfold stringNumber
  rw [if_pos ⟨hne, hall⟩]
  exact congrArg some Nat.ofDigitChars_ten_toDigits

theorem digitsThen_numberString (hc : c.isDigit = false) :
    digitsThen c (numberString n ++ c :: text) = some (numberString n, text) := by
  have hdigits : ∀ d ∈ numberString n, d.isDigit = true := fun d hd => isDigit_of_mem_numberString hd
  have htake : (numberString n ++ c :: text).takeWhile Char.isDigit = numberString n := by
    rw [List.takeWhile_append_of_pos hdigits, List.takeWhile_cons_of_neg (by rw [hc]; exact Bool.false_ne_true),
      List.append_nil]
  have hdrop : (numberString n ++ c :: text).dropWhile Char.isDigit = c :: text := by
    rw [List.dropWhile_append_of_pos hdigits, List.dropWhile_cons_of_neg (by rw [hc]; exact Bool.false_ne_true)]
  unfold digitsThen
  rw [htake, hdrop]
  cases hn : numberString n with
  | nil => exact absurd hn Nat.toDigits_ne_nil
  | cons d digits => exact if_pos rfl

/-! ## Positions -/

theorem takeWhile_ne_append (h : c ∉ a) : (a ++ c :: b).takeWhile (· ≠ c) = a := by
  have hne : ∀ d ∈ a, decide (d ≠ c) = true := by
    intro d hd
    exact decide_eq_true fun heq => h (heq ▸ hd)
  rw [List.takeWhile_append_of_pos hne, List.takeWhile_cons_of_neg (by simp), List.append_nil]

theorem stringIndex_append (h : c ∉ a) : stringIndex (a ++ c :: b) c = some a.length := by
  unfold stringIndex
  rw [if_pos (by simp), takeWhile_ne_append h]

theorem stringRindex_append (h : c ∉ b) : stringRindex (a ++ c :: b) c = some a.length := by
  have hreverse : (a ++ c :: b).reverse = b.reverse ++ c :: a.reverse := by simp
  unfold stringRindex
  rw [if_pos (by simp), hreverse, takeWhile_ne_append (by simpa using h), List.length_reverse, List.length_append,
    List.length_cons]
  congr 1
  omega

theorem stringCopy_append {start stop : Nat} (a text' : List Char) (htext : text = a ++ b ++ text')
    (hstart : start = a.length)
    (hstop : stop = a.length + b.length) : stringCopy text start stop = some b := by
  subst htext hstart hstop
  have htake : (a ++ b ++ text').take (a.length + b.length) = a ++ b := by
    rw [← List.length_append]
    exact List.take_left
  unfold stringCopy
  rw [if_pos ⟨Nat.le_add_right _ _, by rw [List.length_append, List.length_append]; omega⟩, htake, List.drop_left]

end

/-! ## An edge -/

/-- The line of an edge. -/
def edgeLine (edge : Edge String) : List Char :=
  '(' :: numberString edge.fromState ++ ',' :: '"' :: edge.label.toList ++ '"' :: ',' :: numberString edge.toState ++ [')']

/-- A printed edge is read back, whatever its label is. -/
theorem textEdge_edgeLine (edge : Edge String) :
    textEdge (edgeLine edge) = some (makeEdge edge.fromState edge.label edge.toState false) := by
  have hcomma : ∀ n : Nat, ',' ∉ numberString n := fun n => not_mem_numberString (by decide)
  have hfirst : stringIndex (edgeLine edge) ',' = some (1 + (numberString edge.fromState).length) := by
    have hsplit : edgeLine edge = ('(' :: numberString edge.fromState) ++ ',' ::
        ('"' :: edge.label.toList ++ '"' :: ',' :: numberString edge.toState ++ [')']) := by
      simp [edgeLine]
    rw [hsplit, stringIndex_append (by simp [hcomma]), List.length_cons, Nat.add_comm]
  have hlast : stringRindex (edgeLine edge) ',' =
      some ((numberString edge.fromState).length + edge.label.toList.length + 4) := by
    have hsplit : edgeLine edge = ('(' :: numberString edge.fromState ++ ',' :: '"' :: edge.label.toList ++ ['"']) ++ ',' ::
        (numberString edge.toState ++ [')']) := by
      simp [edgeLine]
    rw [hsplit, stringRindex_append (by simp [hcomma])]
    simp
    omega
  have hlength : (edgeLine edge).length =
      (numberString edge.fromState).length + edge.label.toList.length + (numberString edge.toState).length + 6 := by
    simp [edgeLine]
    omega
  have hfrom : stringCopy (edgeLine edge) 1 (1 + (numberString edge.fromState).length) =
      some (numberString edge.fromState) :=
    stringCopy_append ['('] (',' :: '"' :: edge.label.toList ++ '"' :: ',' :: numberString edge.toState ++ [')'])
      (by simp [edgeLine]) rfl rfl
  have hlabel : stringCopy (edgeLine edge) (1 + (numberString edge.fromState).length + 2)
      ((numberString edge.fromState).length + edge.label.toList.length + 4 - 1) = some edge.label.toList :=
    stringCopy_append ('(' :: numberString edge.fromState ++ [',', '"'])
      ('"' :: ',' :: numberString edge.toState ++ [')']) (by simp [edgeLine]) (by simp; omega) (by simp; omega)
  have hto : stringCopy (edgeLine edge) ((numberString edge.fromState).length + edge.label.toList.length + 4 + 1)
      ((edgeLine edge).length - 1) = some (numberString edge.toState) :=
    stringCopy_append ('(' :: numberString edge.fromState ++ ',' :: '"' :: edge.label.toList ++ ['"', ','])
      [')'] (by simp [edgeLine]) (by simp; omega) (by simp [hlength]; omega)
  unfold textEdge
  rw [hfirst, hlast]
  simp only [Option.bind_eq_bind, Option.bind_some]
  rw [hfrom, hlabel, hto]
  simp only [Option.bind_some]
  rw [stringNumber_numberString, stringNumber_numberString]
  simp [String.ofList_toList]

theorem displayEdge_eq (edge : Edge String) : displayEdge edge = edgeLine edge ++ ['\n'] := by
  simp [displayEdge, edgeLine]

theorem not_mem_edgeLine {edge : Edge String} (h : '\n' ∉ edge.label.toList) : '\n' ∉ edgeLine edge := by
  have hnumber : ∀ n : Nat, '\n' ∉ numberString n := fun n => not_mem_numberString (by decide)
  simp [edgeLine, hnumber, h]

/-! ## The header -/

/-- The line of the header. -/
def headerLine (initial nrTransitions stateCount : Nat) : List Char :=
  ['d', 'e', 's', ' ', '('] ++ numberString initial ++ ',' :: numberString nrTransitions ++ ',' :: numberString stateCount ++ [')']

theorem textAutHeader_headerLine (initial nrTransitions stateCount : Nat) :
    textAutHeader (headerLine initial nrTransitions stateCount) = some (initial, nrTransitions, stateCount) := by
  have hdrop : (headerLine initial nrTransitions stateCount).dropPrefix? ['d', 'e', 's', ' ', '('] =
      some (numberString initial ++ ',' :: (numberString nrTransitions ++ ',' :: (numberString stateCount ++ [')']))) := by
    rw [List.dropPrefix?_eq_some_iff]
    exact ⟨['d', 'e', 's', ' ', '('], by simp [headerLine], by simp⟩
  unfold textAutHeader
  rw [hdrop]
  simp only [Option.bind_eq_bind, Option.bind_some]
  rw [digitsThen_numberString (by decide)]
  simp only [Option.bind_some]
  rw [digitsThen_numberString (by decide)]
  simp only [Option.bind_some]
  rw [digitsThen_numberString (by decide)]
  simp only [Option.bind_some, stringNumber_numberString]
  rfl

theorem not_mem_headerLine (initial nrTransitions stateCount : Nat) :
    '\n' ∉ headerLine initial nrTransitions stateCount := by
  have hnumber : ∀ n : Nat, '\n' ∉ numberString n := fun n => not_mem_numberString (by decide)
  simp [headerLine, hnumber]

/-! ## The lines -/

theorem trimRight_append (line : List Char) : trimRight (line ++ [')']) = line ++ [')'] := by
  simp [trimRight]

/-- A text of lines is split into its lines, and what is after the last one. -/
theorem splitOn_lines (lines : List (List Char)) (h : ∀ line ∈ lines, '\n' ∉ line) :
    (lines.flatMap fun line => line ++ ['\n']).splitOn '\n' = lines ++ [[]] := by
  induction lines with
  | nil => rfl
  | cons line lines ih =>
    have hline : '\n' ∉ line := h line List.mem_cons_self
    have hrest := ih fun line hl => h line (List.mem_cons_of_mem _ hl)
    rw [List.flatMap_cons, List.append_assoc, List.singleton_append, List.splitOn_append_cons_self, hrest,
      List.splitOn_eq_singleton hline]
    rfl

/-- The lines of an LTS. -/
def ltsLines (lts : Lts) : List (List Char) :=
  headerLine lts.initial (lts.flatMap Node.edges).length lts.length :: (lts.flatMap Node.edges).map edgeLine

theorem displayLts_eq (lts : Lts) : displayLts lts = (ltsLines lts).flatMap fun line => line ++ ['\n'] := by
  have hedges : (lts.flatMap Node.edges).flatMap displayEdge =
      ((lts.flatMap Node.edges).map edgeLine).flatMap fun line => line ++ ['\n'] := by
    rw [List.flatMap_map]
    exact List.flatMap_congr fun edge _ => displayEdge_eq edge
  rw [displayLts, ltsLines, List.flatMap_cons, ← hedges]
  simp [headerLine]

/-- Every line ends with a parenthesis. -/
theorem exists_ltsLine {lts : Lts} {line : List Char} (h : line ∈ ltsLines lts) : ∃ l, line = l ++ [')'] := by
  rcases List.mem_cons.1 h with rfl | h
  · exact ⟨_, rfl⟩
  · obtain ⟨edge, -, rfl⟩ := List.mem_map.1 h
    exact ⟨_, rfl⟩

theorem textLines_displayLts {lts : Lts} (h : ∀ line ∈ ltsLines lts, '\n' ∉ line) :
    textLines (displayLts lts) = ltsLines lts := by
  have htrim : (ltsLines lts).map trimRight = ltsLines lts := by
    refine (List.map_congr_left ?_).trans (List.map_id _)
    intro line h
    obtain ⟨l, rfl⟩ := exists_ltsLine h
    exact trimRight_append l
  have hkeep : (ltsLines lts).filter (· ≠ []) = ltsLines lts := by
    rw [List.filter_eq_self]
    intro line h
    obtain ⟨l, rfl⟩ := exists_ltsLine h
    simp
  unfold textLines
  rw [displayLts_eq, splitOn_lines _ h]
  show ((ltsLines lts ++ [[]]).map trimRight).filter (· ≠ []) = ltsLines lts
  rw [List.map_append, htrim, List.filter_append, hkeep]
  simp [trimRight]

/-- What is read of a printed edge. -/
def rereadEdge (edge : Edge String) : Edge String := makeEdge edge.fromState edge.label edge.toState false

theorem mapM_textEdge (edges : List (Edge String)) :
    (edges.map edgeLine).mapM textEdge = some (edges.map rereadEdge) := by
  induction edges with
  | nil => rfl
  | cons edge edges ih =>
    rw [List.map_cons, List.mapM_cons, textEdge_edgeLine, ih]
    rfl

/-! ## The vector -/

/-- The edges of a vector, by their states. -/
theorem flatMap_edges (lts : Lts) : lts.flatMap Node.edges = (List.range lts.length).flatMap fun i => (node lts i).edges := by
  have hnodes : lts = (List.range lts.length).map (node lts) := by
    apply List.ext_getElem
    · simp
    · intro i h h'
      rw [List.getElem_map, List.getElem_range, node_eq h]
  conv_lhs => rw [hnodes]
  rw [List.flatMap_map]

/-- Grouped by the states where they start, edges are the same but for their order. -/
theorem perm_flatMap_filter (edges : List (Edge String)) (n : Nat) :
    ((List.range n).flatMap fun i => edges.filter fun e => e.fromState = i).Perm
      (edges.filter fun e => e.fromState < n) := by
  induction n with
  | zero => simp
  | succ n ih =>
    have hless : (edges.filter fun e => e.fromState < n + 1).filter (fun e => e.fromState < n) =
        edges.filter fun e => e.fromState < n := by
      rw [List.filter_filter]
      refine List.filter_congr fun e _ => ?_
      rw [← Bool.decide_and, decide_eq_decide]
      omega
    have hlast : (edges.filter fun e => e.fromState < n + 1).filter (fun e => !decide (e.fromState < n)) =
        edges.filter fun e => e.fromState = n := by
      rw [List.filter_filter]
      refine List.filter_congr fun e _ => ?_
      rw [← decide_not, ← Bool.decide_and, decide_eq_decide]
      omega
    have hsplit := List.filter_append_perm (fun e : Edge String => decide (e.fromState < n))
      (edges.filter fun e => e.fromState < n + 1)
    rw [hless, hlast] at hsplit
    rw [List.range_succ, List.flatMap_append, List.flatMap_singleton]
    exact (ih.append_right _).trans hsplit

theorem constructNodes_edges (pred : Bool) (aut : Aut) :
    ((constructNodes pred aut).flatMap Node.edges).Perm aut.edges := by
  have hnode : ∀ i ∈ List.range aut.stateCount,
      (node (constructNodes pred aut) i).edges.Perm (aut.edges.filter fun e => e.fromState = i) := by
    intro i hi
    rw [constructNodes_node (List.mem_range.1 hi)]
    exact (perm_sortBy _ _).trans (List.reverse_perm _)
  have hall : (aut.edges.filter fun e => e.fromState < aut.stateCount) = aut.edges := by
    rw [List.filter_eq_self]
    intro e he
    exact decide_eq_true (aut.inRange e he).1
  rw [flatMap_edges, constructNodes_length]
  refine (List.Perm.flatMap_left _ hnode).trans ?_
  rw [← hall]
  have hperm := perm_flatMap_filter aut.edges aut.stateCount
  rw [hall] at hperm ⊢
  exact hperm

theorem constructNodes_initial (pred : Bool) (aut : Aut) (h : aut.firstState < aut.stateCount) :
    (constructNodes pred aut).initial = aut.firstState := by
  have hlen : (constructNodes pred aut).length = aut.stateCount := constructNodes_length
  have hflag : ∀ i, (hi : i < (constructNodes pred aut).length) →
      (constructNodes pred aut)[i].initial = decide (i = aut.firstState) := by
    intro i hi
    rw [← node_eq hi, constructNodes_node (by omega)]
    rfl
  have hany : (constructNodes pred aut).any Node.initial = true := by
    refine List.any_eq_true.2 ⟨(constructNodes pred aut)[aut.firstState], List.getElem_mem _, ?_⟩
    rw [hflag]
    exact decide_eq_true rfl
  unfold Lts.initial
  rw [if_pos hany, List.findIdx_eq (by omega)]
  refine ⟨by rw [hflag]; exact decide_eq_true rfl, ?_⟩
  intro j hj
  rw [hflag]
  exact decide_eq_false (by omega)

/-- What `construct-lts` makes has the initial state, the states and the edges of the AUT file. -/
theorem construct_spec (pred : Bool) (aut : Aut) (h : aut.firstState < aut.stateCount) :
    ∃ lts, (if pred then some (constructLtsPred aut) else constructLts aut) = some lts ∧
      lts.initial = aut.firstState ∧ lts.length = aut.stateCount ∧ (lts.flatMap Node.edges).Perm aut.edges := by
  cases pred with
  | true => exact ⟨_, rfl, constructNodes_initial true aut h, constructNodes_length, constructNodes_edges true aut⟩
  | false =>
    obtain ⟨lts, hrun, hlen, -, -, hbare⟩ := constructLts_annotated aut
    have hlen' : lts.length = (constructNodes false aut).length := hlen.trans constructNodes_length.symm
    refine ⟨lts, hrun, ?_, hlen, ?_⟩
    · rw [initial_congr (map_initial_of_bare hlen' hbare)]
      exact constructNodes_initial false aut h
    · have hedges : lts.flatMap Node.edges = (constructNodes false aut).flatMap Node.edges := by
        rw [flatMap_edges, flatMap_edges, hlen']
        exact List.flatMap_congr fun i _ => bare_edges (hbare i)
      rw [hedges]
      exact constructNodes_edges false aut

/-! ## The theorem -/

/-- The ends and the label of an edge. -/
def Edge.triple (e : Edge String) : Nat × String × Nat := (e.fromState, e.label, e.toState)

/-- An LTS that is printed and read back has the same initial state, number of states and edges. -/
theorem displayLts_read (pred : Bool) (lts : Lts) (hne : lts ≠ [])
    (hstates : ∀ e ∈ lts.flatMap Node.edges, e.fromState < lts.length ∧ e.toState < lts.length)
    (hlabels : ∀ e ∈ lts.flatMap Node.edges, '\n' ∉ e.label.toList) :
    ∃ lts', autTextLts pred (displayLts lts) = some lts' ∧ lts'.initial = lts.initial ∧ lts'.length = lts.length ∧
      ((lts'.flatMap Node.edges).map Edge.triple).Perm ((lts.flatMap Node.edges).map Edge.triple) := by
  have hpos : 0 < lts.length := List.length_pos_of_ne_nil hne
  have hlines : ∀ line ∈ ltsLines lts, '\n' ∉ line := by
    intro line hline
    rcases List.mem_cons.1 hline with rfl | hline
    · exact not_mem_headerLine _ _ _
    · obtain ⟨edge, hedge, rfl⟩ := List.mem_map.1 hline
      exact not_mem_edgeLine (hlabels edge hedge)
  have hreread : ∀ e ∈ (lts.flatMap Node.edges).map rereadEdge, e.fromState < lts.length ∧ e.toState < lts.length := by
    intro e he
    obtain ⟨edge, hedge, rfl⟩ := List.mem_map.1 he
    exact hstates edge hedge
  obtain ⟨lts', hrun, hinitial, hlen, hedges⟩ := construct_spec pred
    ⟨lts.initial, lts.length, (lts.flatMap Node.edges).map rereadEdge, hpos, hreread⟩ (initial_lt hpos)
  refine ⟨lts', ?_, hinitial, hlen, ?_⟩
  · unfold autTextLts
    rw [textLines_displayLts hlines]
    show (do
      let header ← textAutHeader (headerLine lts.initial (lts.flatMap Node.edges).length lts.length)
      let edges ← ((lts.flatMap Node.edges).map edgeLine).mapM textEdge
      let aut ← makeAut header.1 header.2.2 edges
      if pred then some (constructLtsPred aut) else constructLts aut) = some lts'
    rw [textAutHeader_headerLine, mapM_textEdge]
    show (makeAut lts.initial lts.length ((lts.flatMap Node.edges).map rereadEdge) >>= fun aut =>
      if pred then some (constructLtsPred aut) else constructLts aut) = some lts'
    unfold makeAut
    rw [dif_pos ⟨hpos, hreread⟩]
    exact hrun
  · have htriple : ((lts.flatMap Node.edges).map rereadEdge).map Edge.triple = (lts.flatMap Node.edges).map Edge.triple := by
      rw [List.map_map]
      rfl
    rw [← htriple]
    exact hedges.map _

/-- A label with a comma, quotes and parentheses. -/
def quotedLts : Lts := [⟨0, [makeEdge 0 "p.e(\"a,b\"),1)" 1 false], [], true, .white, none, 0, none⟩, stateNode 0 1]

theorem displayLts_read_quoted : ∃ lts', autTextLts false (displayLts quotedLts) = some lts' ∧
    lts'.initial = quotedLts.initial ∧ lts'.length = quotedLts.length ∧
    ((lts'.flatMap Node.edges).map Edge.triple).Perm ((quotedLts.flatMap Node.edges).map Edge.triple) :=
  displayLts_read false quotedLts (by decide) (by decide) (by decide)

end Dezyne
