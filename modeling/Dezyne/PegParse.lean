import Dezyne.PegGrammar
/-!
# Parsing a text

The grammar has no left recursion, so that parsing ends; `root` comes to the end of
the text; and what tables keep of a rule that does not depend on names is what the
rule gives.
-/

namespace Dezyne.Peg

theorem grammar_wellFormed : WellFormed grammar (some pegSkip) rank facts 15 250 := by
  refine ⟨fun n => ?_, fun n => ?_, fun n => ?_, fun n => ?_, ?_, by decide⟩
  · cases n <;> decide
  · cases n <;> decide
  · cases n <;> decide
  · cases n <;> decide
  · rintro p ⟨⟩
    decide

theorem imports_wellFormed : WellFormed grammar (some pegImportSkip) rank facts 15 250 := by
  refine ⟨grammar_wellFormed.sound, fun n => ?_, grammar_wellFormed.rank_lt, grammar_wellFormed.size_le, ?_, by decide⟩
  · cases n <;> decide
  · rintro p ⟨⟩
    decide

theorem grammar_cacheable : Cacheable grammar (some pegSkip) pure mode := by
  refine ⟨fun n => ?_, fun n => ?_, ?_⟩
  · cases n <;> decide
  · cases n <;> decide
  · rintro p ⟨⟩
    decide

theorem imports_cacheable : Cacheable grammar (some pegImportSkip) pure mode := by
  refine ⟨grammar_cacheable.pure_rule, grammar_cacheable.moded_rule, ?_⟩
  rintro p ⟨⟩
  decide

/-! ## Parsing ends -/

section
variable {input : Input Name} {cached : Bool} {fuel : Nat}

theorem matchPattern_enough (hG : WellFormed grammar input.skip rank facts 15 250)
    (hfuel : enough 15 250 input.text.length ≤ fuel) (n : Name) (names : Names) :
    matchPattern grammar cached fuel input n (.init names) ≠ .timeout ∧
      matchPattern grammar cached fuel input n (.init names) =
        matchPattern grammar cached (enough 15 250 input.text.length) input n (.init names) := by
  have hne : run grammar cached (enough 15 250 input.text.length) input (.sym n) .body 0 (.init names) ≠ .timeout :=
    run_enough hG true (init_good names) hG.one_le
  rw [matchPattern, matchPattern, run_le hfuel hne]
  refine ⟨?_, rfl⟩
  generalize run grammar cached _ input (.sym n) .body 0 (.init names) = o at hne
  cases o with
  | timeout => exact absurd rfl hne
  | ok | fail | error => exact nofun

end

/-- Whatever the text, parsing it ends. -/
theorem parse_ends (cached locations : Bool) (text : List Char) :
    (∃ o ≠ .timeout, ∀ fuel, enough 15 250 text.length ≤ fuel → pegParse cached locations fuel text = o) ∧
      ∃ o ≠ .timeout, ∀ fuel, enough 15 250 text.length ≤ fuel → pegImports cached fuel text = o := by
  have hparse := fun fuel hfuel => @matchPattern_enough (parseInput locations text) cached fuel
    grammar_wellFormed hfuel .root ⟨[], [], []⟩
  have himports := fun fuel hfuel => @matchPattern_enough (importsInput text) cached fuel
    imports_wellFormed hfuel .importsRoot ⟨[], [], []⟩
  exact ⟨⟨_, (hparse _ (Nat.le_refl _)).1, fun fuel hfuel => (hparse fuel hfuel).2⟩,
    _, (himports _ (Nat.le_refl _)).1, fun fuel hfuel => (himports fuel hfuel).2⟩

/-! ## What is parsed -/

theorem Outcome.result_map {o o' : Outcome Name Names} (h : o.result = o'.result) (f : Datum → Datum) :
    (o.bind fun stop d st => .ok stop (f d) st).result = (o'.bind fun stop d st => .ok stop (f d) st).result := by
  cases o <;> cases o' <;> simp_all [Outcome.bind, Outcome.result]

/-- The imports of a text are what they are without tables. -/
theorem imports_cached (text : List Char) :
    ∃ r, ∀ cached fuel, enough 15 250 text.length ≤ fuel → (pegImports cached fuel text).result = some r := by
  obtain ⟨-, o, ho, himports⟩ := parse_ends false false text
  have hcached : ∀ fuel, enough 15 250 text.length ≤ fuel →
      (pegImports true fuel text).result = (pegImports false fuel text).result := fun fuel hfuel =>
    Outcome.result_map (@cached_result _ _ _ _ _ (importsInput text) _ true _ grammar _ _ _ _ imports_wellFormed
      imports_cacheable (.sym .importsRoot) (by decide) (by decide) (.init _) _ _ hfuel .body 0) _
  obtain ⟨r, hr⟩ : ∃ r, o.result = some r := by
    cases o with
    | timeout => exact absurd rfl ho
    | ok | fail | error => exact ⟨_, rfl⟩
  refine ⟨r, fun cached fuel hfuel => ?_⟩
  cases cached with
  | false => exact himports fuel hfuel ▸ hr
  | true => exact hcached fuel hfuel ▸ himports fuel hfuel ▸ hr

end Dezyne.Peg
