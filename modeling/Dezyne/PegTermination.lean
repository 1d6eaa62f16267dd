import Dezyne.PegRun
/-!
# Parsing ends

A grammar is without left recursion when identifiers have ranks and a definition
comes, before it comes further in the text, to identifiers of a smaller rank only.
What is left of the text, the rank and the size of the pattern then bound the fuel
that a parser needs (`run_ne_timeout`).
-/

namespace Dezyne.Peg

variable {N A U : Type}

mutual
/-- The identifiers that a pattern comes to before it comes further have a rank smaller than `k`. -/
def Pattern.leftOk (rank : N → Nat) (F : Facts N) (k : Nat) : Pattern N → Bool
  | .any | .str _ | .range _ _ => true
  | .sym n => rank n < k
  | .ignore p | .capture p | .star p | .plus p | .opt p | .followedBy p | .notFollowedBy p | .expect p =>
    p.leftOk rank F k
  | .and ps => Pattern.andOk rank F k ps
  | .or ps => Pattern.orOk rank F k ps

def Pattern.andOk (rank : N → Nat) (F : Facts N) (k : Nat) : List (Pattern N) → Bool
  | [] => true
  | p :: ps => p.leftOk rank F k && (!(p.flags F).nullable || Pattern.andOk rank F k ps)

def Pattern.orOk (rank : N → Nat) (F : Facts N) (k : Nat) : List (Pattern N) → Bool
  | [] => true
  | p :: ps => p.leftOk rank F k && Pattern.orOk rank F k ps
end

/-- A definition, whose nonterminals skip with `skip`. -/
def Definition.leftOk (rank : N → Nat) (F : Facts N) (skip : Option (Pattern N)) (k : Nat) : Definition N A → Bool
  | .peg _ p => p.leftOk rank F k && skip.all (·.leftOk rank F k)
  | .skip _ p => p.leftOk rank F k
  | .proc (.act _) => true
  | .proc (.named m _) | .proc (.noSkip m) => rank m < k

def Definition.size : Definition N A → Nat
  | .peg _ p | .skip _ p => p.size
  | .proc _ => 1

/-- A grammar without left recursion, with bounds on the ranks and on the sizes of patterns. -/
structure WellFormed (G : Grammar N A U) (skip : Option (Pattern N)) (rank : N → Nat) (F : Facts N)
    (ranks sizes : Nat) : Prop where
  sound : F.Sound G
  left : ∀ n, (G.rule n).leftOk rank F skip (rank n)
  rank_lt : ∀ n, rank n < ranks
  size_le : ∀ n, (G.rule n).size ≤ sizes
  skip_lt : ∀ p, skip = some p → p.size < sizes
  one_le : 1 ≤ sizes

/-! ## Weights -/

/-- What is left of the text, then the rank, then the size of the pattern. -/
def weight (ranks sizes left k size : Nat) : Nat := (left * (ranks + 1) + k) * sizes + size

section
variable {ranks sizes left left' k k' size size' : Nat}

theorem weight_lt_of_rank (hleft : left' ≤ left) (hk : k' < k) (hsize : size' ≤ sizes) (hpos : 0 < size) :
    weight ranks sizes left' k' size' < weight ranks sizes left k size := by
  have hsucc : left' * (ranks + 1) + k' + 1 ≤ left * (ranks + 1) + k := by
    have := Nat.mul_le_mul_right (ranks + 1) hleft
    omega
  calc weight ranks sizes left' k' size' ≤ (left' * (ranks + 1) + k' + 1) * sizes := by
        rw [weight, Nat.succ_mul]
        omega
    _ ≤ (left * (ranks + 1) + k) * sizes := Nat.mul_le_mul_right sizes hsucc
    _ < weight ranks sizes left k size := Nat.lt_add_of_pos_right hpos

theorem weight_lt_of_left (hleft : left' < left) (hk : k' ≤ ranks) (hsize : size' ≤ sizes) (hpos : 0 < size) :
    weight ranks sizes left' k' size' < weight ranks sizes left k size := by
  have hsucc : left' * (ranks + 1) + k' + 1 ≤ left * (ranks + 1) + k := by
    have := Nat.mul_le_mul_right (ranks + 1) hleft
    rw [Nat.succ_mul] at this
    omega
  calc weight ranks sizes left' k' size' ≤ (left' * (ranks + 1) + k' + 1) * sizes := by
        rw [weight, Nat.succ_mul]
        omega
    _ ≤ (left * (ranks + 1) + k) * sizes := Nat.mul_le_mul_right sizes hsucc
    _ < weight ranks sizes left k size := Nat.lt_add_of_pos_right hpos

theorem weight_lt_of_size (hleft : left' ≤ left) (hsize : size' < size) :
    weight ranks sizes left' k size' < weight ranks sizes left k size := by
  have h := Nat.mul_le_mul_right sizes (Nat.add_le_add_right (Nat.mul_le_mul_right (ranks + 1) hleft) k)
  exact Nat.add_lt_add_of_le_of_lt h hsize

end

/-! ## Identifiers that a pattern comes to -/

section
variable {rank : N → Nat} {F : Facts N} {ranks : Nat}

mutual
theorem Pattern.leftOk_of_lt (h : ∀ n, rank n < ranks) : ∀ p : Pattern N, p.leftOk rank F ranks = true
  | .any | .str _ | .range _ _ => rfl
  | .sym n => decide_eq_true (h n)
  | .ignore p | .capture p | .star p | .plus p | .opt p | .followedBy p | .notFollowedBy p | .expect p =>
    Pattern.leftOk_of_lt h p
  | .and ps => Pattern.andOk_of_lt h ps
  | .or ps => Pattern.orOk_of_lt h ps

theorem Pattern.andOk_of_lt (h : ∀ n, rank n < ranks) : ∀ ps : List (Pattern N), Pattern.andOk rank F ranks ps = true
  | [] => rfl
  | p :: ps => by rw [Pattern.andOk, Pattern.leftOk_of_lt h p, Pattern.andOk_of_lt h ps, Bool.or_true, Bool.and_true]

theorem Pattern.orOk_of_lt (h : ∀ n, rank n < ranks) : ∀ ps : List (Pattern N), Pattern.orOk rank F ranks ps = true
  | [] => rfl
  | p :: ps => by rw [Pattern.orOk, Pattern.leftOk_of_lt h p, Pattern.orOk_of_lt h ps, Bool.and_true]
end

end

/-! ## No parser runs out of fuel -/

/-- An outcome that is there, and is good. -/
def Outcome.Ends (F : Facts N) (input : Input N) (fl : Flags) (pos : Nat) (o : Outcome N U) : Prop :=
  o ≠ .timeout ∧ o.GoodAt F input fl pos

section
variable {F : Facts N} {input : Input N} {fl : Flags} {pos : Nat} {o : Outcome N U}

theorem Outcome.Ends.bind {f : Nat → Datum → State N U → Outcome N U} (h : o.Ends F input fl pos)
    (hf : ∀ stop d st, Parsed input.text input.locations fl pos stop d → st.Good F input → f stop d st ≠ .timeout) :
    o.bind f ≠ .timeout := by
  obtain ⟨ho, h⟩ := h
  cases o with
  | ok stop d st => exact hf stop d st h.1 h.2
  | fail | error => exact nofun
  | timeout => exact absurd rfl ho

theorem Outcome.Ends.orElse {f : State N U → Outcome N U} (h : o.Ends F input fl pos)
    (hf : ∀ st, st.Good F input → f st ≠ .timeout) : o.orElse f ≠ .timeout := by
  obtain ⟨ho, h⟩ := h
  cases o with
  | fail st => exact hf st h.2
  | ok | error => exact nofun
  | timeout => exact absurd rfl ho

theorem Outcome.Ends.turn {f : Nat → State N U → Outcome N U} {further : Nat → Datum → State N U → Outcome N U}
    {done : State N U → Outcome N U} {st : State N U} (h : (f pos st).Ends F input fl pos)
    (hfurther : ∀ stop d st, pos < stop → Parsed input.text input.locations fl pos stop d → st.Good F input →
      further stop d st ≠ .timeout)
    (hdone : ∀ st, st.Good F input → done st ≠ .timeout) : turn f further done pos st ≠ .timeout := by
  obtain ⟨ho, h⟩ := h
  unfold Peg.turn
  generalize f pos st = o at ho h
  cases o with
  | ok stop d st =>
    dsimp only
    split
    next hlt => exact hfurther stop d st hlt h.1 h.2
    next => exact hdone st h.2
  | fail st => exact hdone st h.2
  | error => exact nofun
  | timeout => exact absurd rfl ho

/-- A loop ends when each round does from where it starts: a round that does not end it comes further. -/
theorem loop_ne_timeout {f : Nat → State N U → Outcome N U}
    {ret : Nat → Nat → List Datum → State N U → Outcome N U} {start : Nat}
    (h : ∀ pos st, start ≤ pos → pos ≤ max start input.text.length → st.Good F input →
      (f pos st).Ends F input fl pos)
    (hret : ∀ pos count body st, ret pos count body st ≠ .timeout) (fuel : Nat) {pos count : Nat} {body : List Datum}
    {st : State N U} (hle : start ≤ pos) (hpos : pos ≤ max start input.text.length)
    (hfuel : input.text.length - pos < fuel) (hst : st.Good F input) :
    loop f ret fuel pos count body st ≠ .timeout := by
  induction fuel generalizing pos count body st with
  | zero => omega
  | succ fuel ih =>
    refine (h pos st hle hpos hst).turn (fun stop d st hlt hd hst => ?_) fun _ _ => hret _ _ _ _
    have hstop := hd.stop_le
    exact ih (by omega) (by omega) (by omega) hst

variable {rank : N → Nat} {ranks sizes fuel k : Nat} {f : Parser N U}

/-- The parser ends on what weighs less than `fuel`, when blanks are skipped or not. -/
def EndsBelow (f : Parser N U) (F : Facts N) (rank : N → Nat) (ranks sizes fuel : Nat) (input : Input N) : Prop :=
  ∀ (skip : Option (Pattern N)) (p : Pattern N) (accum : Accum) (pos : Nat) (st : State N U) (k : Nat),
    skip = none ∨ skip = input.skip → st.Good F input → p.leftOk rank F k → k ≤ ranks → p.size ≤ sizes →
      weight ranks sizes (input.text.length - pos) k p.size < fuel →
      (f { input with skip := skip } p accum pos st).Ends F input (p.flags F) pos

/-- What a parser needs for a pattern in another one, at the same position or later in the text. -/
theorem EndsBelow.inside (h : EndsBelow f F rank ranks sizes fuel input) (hrank : ∀ n, rank n < ranks) {p q : Pattern N}
    {stop : Nat} {accum : Accum} {st : State N U} (hk : k ≤ ranks) (hp : p.size ≤ sizes)
    (hfuel : weight ranks sizes (input.text.length - pos) k p.size < fuel + 1) (hq : q.size < p.size)
    (hpos : pos ≤ stop) (hstop : stop ≤ max pos input.text.length) (hleft : stop ≤ pos → q.leftOk rank F k)
    (hst : st.Good F input) :
    (f input q accum stop st).Ends F input (q.flags F) stop := by
  rcases Nat.eq_or_lt_of_le hpos with rfl | hlt
  · refine h input.skip q accum pos st k (.inr rfl) hst (hleft (Nat.le_refl _)) hk (by omega) ?_
    exact Nat.lt_of_lt_of_le (weight_lt_of_size (Nat.le_refl _) hq) (Nat.le_of_lt_succ hfuel)
  · refine h input.skip q accum stop st ranks (.inr rfl) hst (Pattern.leftOk_of_lt hrank q) (Nat.le_refl _)
      (by omega) ?_
    exact Nat.lt_of_lt_of_le (weight_lt_of_left (by omega) (Nat.le_refl _) (by omega) p.size_pos)
      (Nat.le_of_lt_succ hfuel)

theorem runAnd_ne_timeout {g : Pattern N → Nat → State N U → Outcome N U} {accum : Accum} {start : Nat}
    (ps : List (Pattern N))
    (h : ∀ p ∈ ps, ∀ pos st, start ≤ pos → pos ≤ max start input.text.length →
      (pos ≤ start → p.leftOk rank F k) → st.Good F input →
      (g p pos st).Ends F input (p.flags F) pos)
    {body : List Datum} {st : State N U} (hle : start ≤ pos) (hpos : pos ≤ max start input.text.length)
    (hok : pos ≤ start → Pattern.andOk rank F k ps) (hst : st.Good F input) :
    runAnd g accum ps pos body st ≠ .timeout := by
  induction ps generalizing pos body st with
  | nil => exact nofun
  | cons p ps ih =>
    have hboth : pos ≤ start → p.leftOk rank F k ∧ ((p.flags F).nullable → Pattern.andOk rank F k ps) := fun hs => by
      simpa [Pattern.andOk, Bool.or_eq_true, ← Bool.not_eq_true, or_iff_not_imp_left] using hok hs
    refine (h p List.mem_cons_self pos st hle hpos (fun hs => (hboth hs).1) hst).bind fun stop d st hd hst => ?_
    have hstop := hd.stop_le
    have hpos' := hd.le
    refine ih (fun q hq => h q (List.mem_cons_of_mem p hq)) (Nat.le_trans hle hpos') (by omega) (fun hs => ?_) hst
    refine (hboth (Nat.le_trans hpos' hs)).2 ?_
    cases hnull : (p.flags F).nullable with
    | true => rfl
    | false => exact absurd (hd.lt hnull) (by omega)

theorem runOr_ne_timeout {g : Pattern N → Nat → State N U → Outcome N U} (ps : List (Pattern N))
    (h : ∀ p ∈ ps, ∀ st, p.leftOk rank F k → st.Good F input →
      (g p pos st).Ends F input (p.flags F) pos)
    {st : State N U} (hok : Pattern.orOk rank F k ps) (hst : st.Good F input) : runOr g ps pos st ≠ .timeout := by
  induction ps generalizing st with
  | nil => exact nofun
  | cons p ps ih =>
    obtain ⟨hp, hps⟩ := Bool.and_eq_true_iff.mp hok
    exact (h p List.mem_cons_self st hp hst).orElse fun st hst =>
      ih (fun q hq => h q (List.mem_cons_of_mem p hq)) hps hst

theorem ofRes_ne_timeout (st : State N U) (res : Option (Nat × Datum)) : Outcome.ofRes st res ≠ .timeout := by
  cases res <;> exact nofun

variable [DecidableEq N] {G : Grammar N A U} {c : Bool}

theorem store_ne_timeout {o : Outcome N U} (h : o ≠ .timeout) (n : N) (str pos : Nat) :
    o.store n str pos ≠ .timeout := by
  cases o with
  | timeout => exact absurd rfl h
  | _ => exact nofun

/-- The definition of an identifier has a smaller rank than a pattern that comes to the identifier. -/
theorem runSym_ne_timeout (hG : WellFormed G input.skip rank F ranks sizes)
    (h : EndsBelow f F rank ranks sizes fuel input) {n : N} {st : State N U} (hn : rank n < k)
    (hfuel : weight ranks sizes (input.text.length - pos) k 1 < fuel + 1) (hst : st.Good F input) :
    runSym G c f input n pos st ≠ .timeout := by
  have hleft := hG.left n
  have hsize := hG.size_le n
  have hbelow : ∀ (p : Pattern N) (skip : Option (Pattern N)) {stop : Nat} {accum : Accum} {st : State N U},
      skip = none ∨ skip = input.skip → p.leftOk rank F (rank n) → p.size ≤ sizes → pos ≤ stop → st.Good F input →
      (f { input with skip := skip } p accum stop st).Ends F input (p.flags F) stop :=
    fun p skip _ _ _ hskip hok hp hpos hst => h _ _ _ _ _ (rank n) hskip hst hok (Nat.le_of_lt (hG.rank_lt n)) hp
      (Nat.lt_of_lt_of_le (weight_lt_of_rank (by omega) hn hp Nat.one_pos) (Nat.le_of_lt_succ hfuel))
  unfold runSym
  split
  next accum p hrule =>
    rw [hrule] at hleft hsize
    obtain ⟨hp, hskip⟩ := Bool.and_eq_true_iff.mp hleft
    have hskipEnds : (skipParser f input pos st).Ends F input (.of true false false) pos := by
      unfold skipParser
      split
      · exact ⟨nofun, .nothing _, hst⟩
      next q hq =>
        rw [hq] at hskip
        have hstar := @hbelow (.star q) input.skip pos .all st (.inr rfl) hskip (hG.skip_lt q hq) (Nat.le_refl _) hst
        exact ⟨hstar.1, hstar.2.mono (fun _ _ hd => hd.anything) fun _ => nofun⟩
    have hwrap : wrap input accum (G.symbol n) (skipParser f input) (f input p accum) pos st ≠ .timeout := by
      refine hskipEnds.bind fun first comment st hc hst => ?_
      exact (hbelow p input.skip (.inr rfl) hp hsize hc.le hst).bind fun _ _ _ _ _ => nofun
    dsimp only
    split
    · unfold cachedParser
      split
      · exact ofRes_ne_timeout _ _
      · exact store_ne_timeout hwrap _ _ _
    · exact hwrap
  next accum p hrule =>
    rw [hrule] at hleft hsize
    exact (hbelow p input.skip (.inr rfl) hleft hsize (Nat.le_refl _) hst).1
  next a hrule => split <;> exact nofun
  next m a hrule =>
    rw [hrule] at hleft
    refine (hbelow (.sym m) input.skip (.inr rfl) hleft hG.one_le (Nat.le_refl _) hst).bind fun _ _ _ _ _ => ?_
    split <;> exact nofun
  next m hrule =>
    rw [hrule] at hleft
    exact (hbelow (.sym m) none (.inl rfl) hleft hG.one_le (Nat.le_refl _) hst).1

theorem step_ne_timeout (hG : WellFormed G input.skip rank F ranks sizes)
    (h : EndsBelow f F rank ranks sizes fuel input) {p : Pattern N} {accum : Accum} {st : State N U}
    (hst : st.Good F input) (hp : p.leftOk rank F k) (hk : k ≤ ranks) (hsize : p.size ≤ sizes)
    (hfuel : weight ranks sizes (input.text.length - pos) k p.size < fuel + 1) :
    step G c f input p accum pos st ≠ .timeout := by
  have hin : ∀ {q : Pattern N} {accum : Accum} {stop : Nat} {st : State N U}, q.size < p.size → pos ≤ stop →
      stop ≤ max pos input.text.length → (stop ≤ pos → q.leftOk rank F k) → st.Good F input →
      (f input q accum stop st).Ends F input (q.flags F) stop :=
    fun hq hpos hstop hleft hst => h.inside hG.rank_lt hk hsize hfuel hq hpos hstop hleft hst
  have hone : ∀ {q : Pattern N} {accum : Accum}, q.size + 1 = p.size → q.leftOk rank F k →
      (f input q accum pos st).Ends F input (q.flags F) pos :=
    fun hq hleft => hin (by omega) (Nat.le_refl _) (Nat.le_max_left _ _) (fun _ => hleft) hst
  cases p with
  | any =>
    simp only [step]
    split <;> simp
  | sym n => exact runSym_ne_timeout hG h (of_decide_eq_true hp) hfuel hst
  | str s =>
    simp only [step]
    split <;> simp
  | range first last =>
    simp only [step]
    split
    · split <;> simp
    · simp
  | ignore q => exact (hone rfl hp).1
  | capture q => exact (hone rfl hp).1
  | and ps =>
    refine runAnd_ne_timeout ps (fun q hq stop st hpos hstop hleft hst => ?_) (Nat.le_refl _) (Nat.le_max_left _ _)
      (fun _ => hp) hst
    exact hin (Nat.lt_succ_of_le (Pattern.le_sizeAll hq)) hpos hstop hleft hst
  | or ps =>
    refine runOr_ne_timeout ps (fun q hq st hleft hst => ?_) hp hst
    exact hin (Nat.lt_succ_of_le (Pattern.le_sizeAll hq)) (Nat.le_refl _) (Nat.le_max_left _ _) (fun _ => hleft) hst
  | star q =>
    simp only [step]
    refine loop_ne_timeout (fun stop st hpos hstop hst => hin (Nat.lt_succ_self _) hpos hstop (fun _ => hp) hst)
      (fun _ _ _ _ => ?_) _ (Nat.le_refl _) (Nat.le_max_left _ _) (by omega) hst
    simp
  | plus q =>
    simp only [step]
    refine loop_ne_timeout (fun stop st hpos hstop hst => hin (Nat.lt_succ_self _) hpos hstop (fun _ => hp) hst)
      (fun _ _ _ _ => ?_) _ (Nat.le_refl _) (Nat.le_max_left _ _) (by omega) hst
    split <;> simp
  | opt q => exact (hone rfl hp).turn (fun _ _ _ _ _ _ => by simp) fun _ _ => by simp
  | followedBy q => exact (hone rfl hp).turn (fun _ _ _ _ _ _ => by simp) fun _ _ => by simp
  | notFollowedBy q => exact (hone rfl hp).turn (fun _ _ _ _ _ _ => by simp) fun _ _ => by simp
  | expect q => exact (hone rfl hp).orElse fun _ _ => by simp

omit [DecidableEq N] in
theorem WellFormed.noSkip (h : WellFormed G input.skip rank F ranks sizes) : WellFormed G none rank F ranks sizes := by
  refine ⟨h.sound, fun n => ?_, h.rank_lt, h.size_le, nofun, h.one_le⟩
  have hleft := h.left n
  cases hrule : G.rule n with
  | peg accum p =>
    rw [hrule] at hleft
    exact Bool.and_eq_true_iff.mpr ⟨(Bool.and_eq_true_iff.mp hleft).1, rfl⟩
  | skip =>
    rw [hrule] at hleft
    exact hleft
  | proc q =>
    rw [hrule] at hleft
    cases q <;> exact hleft

theorem run_endsBelow (hG : WellFormed G input.skip rank F ranks sizes) (fuel : Nat) :
    EndsBelow (run G c fuel) F rank ranks sizes fuel input := by
  induction fuel with
  | zero => exact fun _ _ _ _ _ _ _ _ _ _ _ hfuel => absurd hfuel (Nat.not_lt_zero _)
  | succ fuel ih =>
    intro skip p accum pos st k hskip hst hp hk hsize hfuel
    refine ⟨?_, run_good hG.sound (fuel + 1) { input with skip := skip } p accum pos st hst⟩
    rcases hskip with rfl | rfl
    · refine step_ne_timeout (G := G) hG.noSkip ?_ hst hp hk hsize hfuel
      exact fun skip p accum pos st k hskip hst => ih skip p accum pos st k (.inl (hskip.elim id id)) hst
    · exact step_ne_timeout hG ih hst hp hk hsize hfuel

/-- The parser of a grammar without left recursion ends. -/
theorem run_ne_timeout (hG : WellFormed G input.skip rank F ranks sizes) {p : Pattern N} {accum : Accum}
    {st : State N U} (hst : st.Good F input) (hsize : p.size ≤ sizes)
    (hfuel : weight ranks sizes (input.text.length - pos) ranks p.size < fuel) :
    run G c fuel input p accum pos st ≠ .timeout :=
  (run_endsBelow hG fuel input.skip p accum pos st ranks (.inr rfl) hst (Pattern.leftOk_of_lt hG.rank_lt p)
    (Nat.le_refl _) hsize hfuel).1

end

end Dezyne.Peg
