import Dezyne.PegTermination
/-!
# What the tables change

A table knows a text and a position, but not what the actions have done, nor
whether blanks are skipped. Where no action is involved, and each nonterminal is
parsed with blanks skipped or without, a parser with tables gives what one without
them does (`cached_rel`); the tables of such nonterminals stay right whatever else
is parsed (`run_valid`).
-/

namespace Dezyne.Peg

variable {N A U : Type}

/-- An identifier that no action is behind. -/
def Definition.pure (pure : N → Bool) : Definition N A → Bool
  | .peg _ p | .skip _ p => p.syms.all pure
  | .proc (.noSkip m) => pure m
  | .proc _ => false

/-- An identifier of no mode, or of this one. -/
def allowed (mode : N → Option Bool) (own : Option Bool) (m : N) : Bool := mode m = none || mode m = own

/-- A nonterminal has one mode, with or without skipping, and its definition keeps it; what is below no nonterminal may
have none. -/
def Definition.moded (mode : N → Option Bool) (own : Option Bool) : Definition N A → Bool
  | .peg _ p => own.isSome && p.syms.all (allowed mode own)
  | .skip _ p => p.syms.all (allowed mode own)
  | .proc (.act _) => true
  | .proc (.named m _) => allowed mode own m
  | .proc (.noSkip m) => allowed mode (some false) m

structure Cacheable (G : Grammar N A U) (skip : Option (Pattern N)) (pure : N → Bool) (mode : N → Option Bool) :
    Prop where
  pure_rule : ∀ n, pure n → (G.rule n).pure pure
  moded_rule : ∀ n, (G.rule n).moded mode (mode n)
  skip_syms : ∀ p, skip = some p → ∀ m ∈ p.syms, pure m ∧ mode m = none

/-- The parameters in a mode. -/
def Input.withMode (input : Input N) (skipping : Bool) : Input N :=
  { input with skip := if skipping then input.skip else none }

/-- What the tables of pure nonterminals have is what `plain` gives, from `st₀`, which it does not change. -/
def Valid (plain : Parser N U) (pure : N → Bool) (mode : N → Option Bool) (input : Input N) (st₀ st : State N U) :
    Prop :=
  ∀ n slot e b, pure n → mode n = some b → st.cache n slot = some e → e.str = input.str →
    (Outcome.ofRes st₀ e.res).Rel Eq (plain (input.withMode b) (.sym n) .body e.start st₀)

/-- The states of a parser with tables, and of one without, for what is pure. -/
def Same (plain : Parser N U) (pure : N → Bool) (mode : N → Option Bool) (input : Input N) (st₀ st st' : State N U) :
    Prop :=
  Valid plain pure mode input st₀ st ∧ st' = st₀

section
variable {plain f : Parser N U} {pure : N → Bool} {mode : N → Option Bool} {input : Input N} {st₀ st : State N U}
  {n : N} {b : Bool}

theorem allowed_of_own {own own' : Option Bool} {m : N} (h : allowed mode own m = true)
    (hown : own = none ∨ own = own') : allowed mode own' m = true := by
  rcases hown with rfl | rfl
  · simp_all [allowed]
  · exact h

theorem allowed_own (h : allowed mode (some b) n = true) : mode n = none ∨ mode n = some b := by
  simpa [allowed] using h

theorem Outcome.Rel.mono {V W : State N U → State N U → Prop} {o o' : Outcome N U} (h : o.Rel V o')
    (hVW : ∀ st st', V st st' → W st st') : o.Rel W o' := by
  cases o with
  | timeout => trivial
  | ok stop d st => cases o' with
    | ok stop' d' st' => exact ⟨h.1, h.2.1, hVW _ _ h.2.2⟩
    | _ => exact h.elim
  | fail st => cases o' with
    | fail st' => exact hVW _ _ h
    | _ => exact h.elim
  | error start p => cases o' with
    | error start' p' => exact h
    | _ => exact h.elim

/-- A state that keeps something is related to itself. -/
theorem Outcome.Rel.self {V : State N U → State N U → Prop} {I : State N U → Prop} {o o' : Outcome N U} (h : o.Rel V o')
    (hV : ∀ st st', V st st' → I st) : o.Rel (fun st st' => st' = st ∧ I st) o := by
  cases o with
  | timeout => trivial
  | ok stop d st => cases o' with
    | ok stop' d' st' => exact ⟨rfl, rfl, rfl, hV _ _ h.2.2⟩
    | _ => exact h.elim
  | fail st => cases o' with
    | fail st' => exact ⟨rfl, hV _ _ h⟩
    | _ => exact h.elim
  | error start p => exact ⟨rfl, rfl⟩

variable [DecidableEq N] {G : Grammar N A U}

theorem Valid.set {slot pos : Nat} {res : Option (Nat × Datum)} (h : Valid plain pure mode input st₀ st)
    (hres : ∀ b, pure n → mode n = some b →
      (Outcome.ofRes st₀ res).Rel Eq (plain (input.withMode b) (.sym n) .body pos st₀)) :
    Valid plain pure mode input st₀ (st.set n slot ⟨input.str, pos, res⟩) := by
  intro m i e b hm hb he hstr
  unfold State.set at he
  dsimp only at he
  split at he
  next heq =>
    obtain ⟨rfl, -⟩ := heq
    cases he
    exact hres b hm hb
  next => exact h m i e b hm hb he hstr

omit [DecidableEq N] in
/-- What is found in a table is what `plain` gives. -/
theorem Valid.find {pos : Nat} {res : Option (Nat × Datum)} (h : Valid plain pure mode input st₀ st) (hn : pure n)
    (hb : mode n = some b) (hfind : st.find n input.str pos = some res) :
    (Outcome.ofRes st res).Rel (Same plain pure mode input st₀) (plain (input.withMode b) (.sym n) .body pos st₀) := by
  unfold State.find at hfind
  split at hfind
  next e he =>
    split at hfind
    next heq =>
      obtain ⟨hstr, rfl⟩ := heq
      cases hfind
      have hrel := h n _ e b hn hb he hstr
      generalize plain (input.withMode b) (.sym n) .body e.start st₀ = o at hrel
      cases hres : e.res with
      | none =>
        rw [hres] at hrel
        cases o with
        | fail st' => exact ⟨h, hrel.symm⟩
        | _ => exact hrel.elim
      | some r =>
        rw [hres] at hrel
        cases o with
        | ok stop d st' => exact ⟨hrel.1, hrel.2.1, h, hrel.2.2.symm⟩
        | _ => exact hrel.elim
    next => cases hfind
  next => cases hfind

/-- A result that is kept is the one that `plain` gives. -/
theorem Outcome.Rel.storeSame {o o' : Outcome N U} {pos : Nat} (h : o.Rel (Same plain pure mode input st₀) o')
    (hplain : ∀ b, mode n = some b → plain (input.withMode b) (.sym n) .body pos st₀ = o') :
    (o.store n input.str pos).Rel (Same plain pure mode input st₀) o' := by
  cases o with
  | timeout => trivial
  | error => exact h
  | ok stop d st => cases o' with
    | ok stop' d' st' =>
      obtain ⟨rfl, rfl, hst, rfl⟩ := h
      exact ⟨rfl, rfl, hst.set fun b _ hb => hplain b hb ▸ ⟨rfl, rfl, rfl⟩, rfl⟩
    | _ => exact h.elim
  | fail st => cases o' with
    | fail st' =>
      obtain ⟨hst, rfl⟩ := h
      exact ⟨hst.set fun b _ hb => hplain b hb ▸ rfl, rfl⟩
    | _ => exact h.elim

variable {rank : N → Nat} {F : Facts N} {ranks sizes : Nat}

theorem runSym_rel (hG : WellFormed G input.skip rank F ranks sizes) (hC : Cacheable G input.skip pure mode)
    (hplain : ∀ b p accum pos, p.size ≤ sizes →
      step G false plain (input.withMode b) p accum pos st₀ = plain (input.withMode b) p accum pos st₀)
    (h : ∀ b p accum pos st, (∀ m ∈ p.syms, pure m ∧ allowed mode (some b) m) → p.size ≤ sizes →
      Valid plain pure mode input st₀ st → (f (input.withMode b) p accum pos st).Rel (Same plain pure mode input st₀)
        (plain (input.withMode b) p accum pos st₀))
    (hn : pure n) (hb : allowed mode (some b) n) (pos : Nat) (hst : Valid plain pure mode input st₀ st) :
    (runSym G true f (input.withMode b) n pos st).Rel (Same plain pure mode input st₀)
      (runSym G false plain (input.withMode b) n pos st₀) := by
  have hpure := hC.pure_rule n hn
  have hmoded := hC.moded_rule n
  have hsize := hG.size_le n
  have hf : ∀ (p : Pattern N) accum, (∀ m ∈ p.syms, pure m ∧ allowed mode (some b) m) → p.size ≤ sizes →
      ∀ pos st st', Same plain pure mode input st₀ st st' → (f (input.withMode b) p accum pos st).Rel
        (Same plain pure mode input st₀) (plain (input.withMode b) p accum pos st') := by
    rintro p accum hp hsize pos st _ ⟨hst, rfl⟩
    exact h b p accum pos st hp hsize hst
  have hunfold := hplain b (.sym n) .body pos hG.one_le
  have hown := allowed_own hb
  change runSym G false plain (input.withMode b) n pos st₀ = _ at hunfold
  rw [hunfold]
  unfold runSym at hunfold ⊢
  split
  next accum p hrule =>
    rw [hrule] at hpure hmoded hsize
    simp only [hrule, Bool.false_eq_true, if_false] at hunfold
    obtain ⟨hsome, hsyms⟩ := Bool.and_eq_true_iff.mp hmoded
    have hmode : mode n = some b := hown.resolve_left fun hnone => by simp [hnone] at hsome
    have hp : ∀ m ∈ p.syms, pure m ∧ allowed mode (some b) m := fun m hm =>
      ⟨List.all_eq_true.mp hpure m hm, hmode ▸ List.all_eq_true.mp hsyms m hm⟩
    have hskip : ∀ pos st st', Same plain pure mode input st₀ st st' →
        (skipParser f (input.withMode b) pos st).Rel (Same plain pure mode input st₀)
          (skipParser plain (input.withMode b) pos st') := by
      intro pos st st' hv
      unfold skipParser
      split
      · exact ⟨rfl, rfl, hv⟩
      next q hq =>
        have hinput : input.skip = some q := by
          cases b with
          | true => exact hq
          | false => cases hq
        refine hf (.star q) .all (fun m hm => ?_) (hG.skip_lt q hinput) pos st st' hv
        have hm := hC.skip_syms q hinput m hm
        exact ⟨hm.1, by simp [allowed, hm.2]⟩
    have hwrap := @wrap_rel _ _ _ (input.withMode b) accum (G.symbol n) _ _ _ _ hskip (hf p accum hp hsize) pos st st₀
      ⟨hst, rfl⟩
    dsimp only
    rw [if_pos rfl, cachedParser]
    split
    next res hfind => exact hst.find hn hmode hfind
    next =>
      rw [← hunfold]
      refine hwrap.storeSame fun b' hb' => ?_
      obtain rfl : b' = b := Option.some.inj (hb'.symm.trans hmode)
      exact hunfold.symm
  next accum p hrule =>
    rw [hrule] at hpure hmoded hsize
    simp only [hrule] at hunfold
    rw [← hunfold]
    refine hf p accum (fun m hm => ⟨List.all_eq_true.mp hpure m hm, ?_⟩) hsize pos st st₀ ⟨hst, rfl⟩
    exact allowed_of_own (List.all_eq_true.mp hmoded m hm) hown
  next a hrule =>
    rw [hrule] at hpure
    cases hpure
  next m a hrule =>
    rw [hrule] at hpure
    cases hpure
  next m hrule =>
    rw [hrule] at hpure hmoded
    simp only [hrule] at hunfold
    rw [← hunfold]
    refine h false (.sym m) .body pos st (fun k hk => ?_) hG.one_le hst
    obtain rfl := List.mem_singleton.mp hk
    exact ⟨hpure, hmoded⟩

/-- Where no action is involved, a parser with tables gives what one without them does. -/
theorem cached_rel (hG : WellFormed G input.skip rank F ranks sizes) (hC : Cacheable G input.skip pure mode)
    (hplain : ∀ b p accum pos, p.size ≤ sizes →
      step G false plain (input.withMode b) p accum pos st₀ = plain (input.withMode b) p accum pos st₀) (fuel : Nat) :
    ∀ (b : Bool) (p : Pattern N) (accum : Accum) (pos : Nat) (st : State N U),
      (∀ m ∈ p.syms, pure m ∧ allowed mode (some b) m) → p.size ≤ sizes → Valid plain pure mode input st₀ st →
      (run G true fuel (input.withMode b) p accum pos st).Rel (Same plain pure mode input st₀)
        (plain (input.withMode b) p accum pos st₀) := by
  induction fuel with
  | zero => exact fun _ _ _ _ _ _ _ _ => trivial
  | succ fuel ih =>
    intro b p accum pos st hp hsize hst
    rw [← hplain b p accum pos hsize]
    refine step_rel (fun q hq accum pos st st' hv => ?_) (fun n hn pos st st' hv => ?_) accum pos st st₀ ⟨hst, rfl⟩
    · obtain ⟨hst, rfl⟩ := hv
      exact ih b q accum pos st (fun m hm => hp m (hq.2 m hm)) (Nat.le_trans (Nat.le_of_lt hq.1) hsize) hst
    · obtain ⟨hst, rfl⟩ := hv
      subst hn
      obtain ⟨hpure, hallowed⟩ := hp n List.mem_cons_self
      exact runSym_rel hG hC hplain ih hpure hallowed pos hst

/-! ## Whatever else is parsed -/

/-- What holds of the state holds after parsing. -/
def Outcome.Keeps (I : State N U → Prop) (o : Outcome N U) : Prop := o.Rel (fun st st' => st' = st ∧ I st) o

omit [DecidableEq N] in
theorem Outcome.Rel.keeps {V : State N U → State N U → Prop} {I : State N U → Prop} {o o' : Outcome N U}
    (h : o.Rel V o') (hV : ∀ st st', V st st' → I st) : o.Keeps I := h.self hV

theorem Outcome.Keeps.store {I : State N U → Prop} {o : Outcome N U} {str pos : Nat} (h : o.Keeps I)
    (hI : ∀ st slot e, I st → I (st.set n slot e)) : (o.store n str pos).Keeps I := by
  cases o with
  | ok stop d st => exact ⟨rfl, rfl, rfl, hI _ _ _ h.2.2.2⟩
  | fail st => exact ⟨rfl, hI _ _ _ h.2⟩
  | _ => exact h

theorem runSym_keeps (hG : WellFormed G input.skip rank F ranks sizes) (hC : Cacheable G input.skip pure mode)
    (h : ∀ b p accum pos st, (∀ m ∈ p.syms, allowed mode (some b) m) → p.size ≤ sizes →
      Valid plain pure mode input st₀ st →
      (f (input.withMode b) p accum pos st).Keeps (Valid plain pure mode input st₀))
    (hn : ¬ pure n = true) (hb : allowed mode (some b) n) (pos : Nat) (hst : Valid plain pure mode input st₀ st) :
    (runSym G true f (input.withMode b) n pos st).Keeps (Valid plain pure mode input st₀) := by
  have hmoded := hC.moded_rule n
  have hsize := hG.size_le n
  have hown := allowed_own hb
  have hf : ∀ (p : Pattern N) accum, (∀ m ∈ p.syms, allowed mode (some b) m) → p.size ≤ sizes → ∀ pos st st',
      st' = st ∧ Valid plain pure mode input st₀ st → (f (input.withMode b) p accum pos st).Rel
        (fun st st' => st' = st ∧ Valid plain pure mode input st₀ st) (f (input.withMode b) p accum pos st') := by
    rintro p accum hp hsize pos st _ ⟨rfl, hst⟩
    exact h b p accum pos _ hp hsize hst
  unfold runSym
  split
  next accum p hrule =>
    rw [hrule] at hmoded hsize
    obtain ⟨hsome, hsyms⟩ := Bool.and_eq_true_iff.mp hmoded
    have hmode : mode n = some b := hown.resolve_left fun hnone => by simp [hnone] at hsome
    have hskip : ∀ pos st st', st' = st ∧ Valid plain pure mode input st₀ st →
        (skipParser f (input.withMode b) pos st).Rel (fun st st' => st' = st ∧ Valid plain pure mode input st₀ st)
          (skipParser f (input.withMode b) pos st') := by
      intro pos st st' hv
      unfold skipParser
      split
      · exact ⟨rfl, rfl, hv⟩
      next q hq =>
        have hinput : input.skip = some q := by
          cases b with
          | true => exact hq
          | false => cases hq
        refine hf (.star q) .all (fun m hm => ?_) (hG.skip_lt q hinput) pos st st' hv
        simp [allowed, (hC.skip_syms q hinput m hm).2]
    have hwrap := @wrap_rel _ _ _ (input.withMode b) accum (G.symbol n) _ _ _ _ hskip
      (hf p accum (fun m hm => hmode ▸ List.all_eq_true.mp hsyms m hm) hsize) pos st st ⟨rfl, hst⟩
    dsimp only
    rw [if_pos rfl, cachedParser]
    split
    next res hfind =>
      cases res with
      | none => exact ⟨rfl, hst⟩
      | some r => exact ⟨rfl, rfl, rfl, hst⟩
    next =>
      refine Outcome.Keeps.store hwrap fun st slot e hst m i e' b hm hb he => ?_
      have hne : ¬ (m = n ∧ i = slot) := fun heq => hn (heq.1 ▸ hm)
      exact hst m i e' b hm hb (by simpa [State.set, hne] using he)
  next accum p hrule =>
    rw [hrule] at hmoded hsize
    exact h b p accum pos st (fun m hm => allowed_of_own (List.all_eq_true.mp hmoded m hm) hown) hsize hst
  next a hrule =>
    split
    · exact ⟨rfl, rfl, rfl, hst⟩
    · exact ⟨rfl, hst⟩
  next m a hrule =>
    rw [hrule] at hmoded
    have hm : ∀ k ∈ (Pattern.sym m).syms, allowed mode (some b) k := fun k hk =>
      List.mem_singleton.mp hk ▸ allowed_of_own hmoded hown
    refine Outcome.Rel.bind (h b (.sym m) .body pos st hm hG.one_le hst) ?_
    rintro stop d st' _ ⟨rfl, hst'⟩
    split
    · exact ⟨rfl, rfl, rfl, hst'⟩
    · exact ⟨rfl, hst'⟩
  next m hrule =>
    rw [hrule] at hmoded
    exact h false (.sym m) .body pos st (fun k hk => List.mem_singleton.mp hk ▸ hmoded) hG.one_le hst

/-- The tables of what is pure stay right, whatever is parsed. -/
theorem run_valid (hG : WellFormed G input.skip rank F ranks sizes) (hC : Cacheable G input.skip pure mode)
    (hplain : ∀ b p accum pos, p.size ≤ sizes →
      step G false plain (input.withMode b) p accum pos st₀ = plain (input.withMode b) p accum pos st₀) (fuel : Nat) :
    ∀ (b : Bool) (p : Pattern N) (accum : Accum) (pos : Nat) (st : State N U),
      (∀ m ∈ p.syms, allowed mode (some b) m) → p.size ≤ sizes → Valid plain pure mode input st₀ st →
      (run G true fuel (input.withMode b) p accum pos st).Keeps (Valid plain pure mode input st₀) := by
  induction fuel with
  | zero => exact fun _ _ _ _ _ _ _ _ => trivial
  | succ fuel ih =>
    intro b p accum pos st hp hsize hst
    refine step_rel (fun q hq accum pos st st' hv => ?_) (fun n hn pos st st' hv => ?_) accum pos st st ⟨rfl, hst⟩
    · obtain ⟨rfl, hst⟩ := hv
      exact ih b q accum pos _ (fun m hm => hp m (hq.2 m hm)) (Nat.le_trans (Nat.le_of_lt hq.1) hsize) hst
    · obtain ⟨rfl, hst⟩ := hv
      subst hn
      have hallowed := hp n List.mem_cons_self
      by_cases hn : pure n = true
      · have hsyms : ∀ m ∈ (Pattern.sym n).syms, pure m ∧ allowed mode (some b) m := fun m hm =>
          List.mem_singleton.mp hm ▸ ⟨hn, hallowed⟩
        exact (cached_rel hG hC hplain (fuel + 1) b (.sym n) accum pos _ hsyms hsize hst).keeps fun _ _ hv => hv.1
      · exact runSym_keeps hG hC ih hn hallowed pos hst

/-! ## The parser without tables -/

/-- Fuel that is enough for a text of this length. -/
def enough (ranks sizes length : Nat) : Nat := weight ranks sizes length ranks sizes + 1

omit [DecidableEq N] in
theorem withMode_wellFormed (hG : WellFormed G input.skip rank F ranks sizes) (b : Bool) :
    WellFormed G (input.withMode b).skip rank F ranks sizes := by
  cases b with
  | true => exact hG
  | false => exact hG.noSkip

theorem run_enough {c : Bool} (hG : WellFormed G input.skip rank F ranks sizes) (b : Bool) {p : Pattern N}
    {accum : Accum} {pos : Nat} (hst : st.Good F input) (hsize : p.size ≤ sizes) :
    run G c (enough ranks sizes input.text.length) (input.withMode b) p accum pos st ≠ .timeout := by
  refine run_ne_timeout (withMode_wellFormed hG b) hst hsize (Nat.lt_succ_of_le ?_)
  exact Nat.add_le_add (Nat.mul_le_mul_right _ (Nat.add_le_add_right (Nat.mul_le_mul_right _ (Nat.sub_le _ _)) _)) hsize

/-- With enough fuel a parser is what it is with the fuel of one level more. -/
theorem step_enough {c : Bool} (hG : WellFormed G input.skip rank F ranks sizes) (b : Bool) {p : Pattern N}
    {accum : Accum} {pos : Nat} (hst : st.Good F input) (hsize : p.size ≤ sizes) :
    step G c (run G c (enough ranks sizes input.text.length)) (input.withMode b) p accum pos st =
      run G c (enough ranks sizes input.text.length) (input.withMode b) p accum pos st :=
  run_le (Nat.le_succ _) (run_enough hG b hst hsize)

omit [DecidableEq N] in
theorem init_valid (u : U) : Valid plain pure mode input st₀ (State.init u) := fun _ _ _ _ _ _ h => nomatch h

/-! ## Results -/

/-- What a caller gets: what was parsed, `#f` or a syntax error. -/
def Outcome.result : Outcome N U → Option (Except (Nat × Pattern N) (Option (Nat × Datum)))
  | .ok stop d _ => some (.ok (some (stop, d)))
  | .fail _ => some (.ok none)
  | .error start p => some (.error (start, p))
  | .timeout => none

omit [DecidableEq N] in
theorem Outcome.Rel.result {V : State N U → State N U → Prop} {o o' : Outcome N U} (h : o.Rel V o')
    (ho : o ≠ .timeout) : o.result = o'.result := by
  cases o with
  | timeout => exact absurd rfl ho
  | ok stop d st => cases o' with
    | ok stop' d' st' =>
      obtain ⟨rfl, rfl, -⟩ := h
      rfl
    | _ => exact h.elim
  | fail st => cases o' with
    | fail st' => rfl
    | _ => exact h.elim
  | error start p => cases o' with
    | error start' p' =>
      obtain ⟨rfl, rfl⟩ := h
      rfl
    | _ => exact h.elim

/-- The states that parsers with tables come to, one after the other, whatever is done with the names. -/
inductive Reached (G : Grammar N A U) (mode : N → Option Bool) (sizes : Nat) (input : Input N) : State N U → Prop
  | init (u : U) : Reached G mode sizes input (.init u)
  | user {st : State N U} (u : U) : Reached G mode sizes input st → Reached G mode sizes input { st with user := u }
  | run {st st' : State N U} {fuel pos : Nat} {b : Bool} {p : Pattern N} {accum : Accum} :
      Reached G mode sizes input st → (∀ m ∈ p.syms, allowed mode (some b) m) → p.size ≤ sizes →
      run G true fuel (input.withMode b) p accum pos st = .fail st' ∨
        (∃ stop d, run G true fuel (input.withMode b) p accum pos st = .ok stop d st') →
      Reached G mode sizes input st'

theorem Reached.good (hF : F.Sound G) (h : Reached G mode sizes input st) : st.Good F input := by
  induction h with
  | init u => exact init_good u
  | user u _ ih => exact ih
  | @run st st' fuel pos b p accum _ _ _ hrun ih =>
    have hgood := run_good (c := true) hF fuel (input.withMode b) p accum pos st ih
    rcases hrun with hrun | ⟨stop, d, hrun⟩
    · rw [hrun] at hgood
      exact hgood.2
    · rw [hrun] at hgood
      exact hgood.2

theorem Reached.valid (hG : WellFormed G input.skip rank F ranks sizes) (hC : Cacheable G input.skip pure mode)
    (hplain : ∀ b p accum pos, p.size ≤ sizes →
      step G false plain (input.withMode b) p accum pos st₀ = plain (input.withMode b) p accum pos st₀)
    (h : Reached G mode sizes input st) : Valid plain pure mode input st₀ st := by
  induction h with
  | init u => exact init_valid u
  | user u _ ih => exact ih
  | @run st st' fuel pos b p accum _ hp hsize hrun ih =>
    have hkeeps := run_valid hG hC hplain fuel b p accum pos st hp hsize ih
    rcases hrun with hrun | ⟨stop, d, hrun⟩
    · rw [hrun] at hkeeps
      exact hkeeps.2
    · rw [hrun] at hkeeps
      exact hkeeps.2.2.2

/-- What the tables have become does not matter where no action is involved. -/
theorem cached_result (hG : WellFormed G input.skip rank F ranks sizes) (hC : Cacheable G input.skip pure mode)
    {p : Pattern N} (hp : ∀ m ∈ p.syms, pure m ∧ allowed mode (some b) m) (hsize : p.size ≤ sizes)
    (hst : Reached G mode sizes input st) (u : U) {fuel : Nat} (hfuel : enough ranks sizes input.text.length ≤ fuel)
    (accum : Accum) (pos : Nat) :
    (run G true fuel (input.withMode b) p accum pos st).result =
      (run G false fuel (input.withMode b) p accum pos (.init u)).result := by
  have hplain : ∀ b (p : Pattern N) accum pos, p.size ≤ sizes →
      step G false (run G false (enough ranks sizes input.text.length)) (input.withMode b) p accum pos (.init u) =
        run G false (enough ranks sizes input.text.length) (input.withMode b) p accum pos (.init u) :=
    fun b p accum pos hsize => step_enough hG b (init_good u) hsize
  have hrel := cached_rel hG hC hplain fuel b p accum pos st hp hsize (hst.valid hG hC hplain)
  have hend : run G true fuel (input.withMode b) p accum pos st ≠ .timeout := by
    have h : run G true (enough ranks sizes input.text.length) (input.withMode b) p accum pos st ≠ .timeout :=
      run_enough hG b (hst.good hG.sound) hsize
    exact fun heq => h (run_le hfuel h ▸ heq)
  rw [run_le hfuel (run_enough hG b (init_good u) hsize)]
  exact hrel.result hend

end

end Dezyne.Peg
