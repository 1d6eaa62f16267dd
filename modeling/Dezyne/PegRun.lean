import Mathlib.Data.List.Basic
import Dezyne.Peg
/-!
# Runs of parsers

Parsers that are related on the patterns in a pattern are related on the pattern
(`step_rel`). More fuel changes no outcome (`run_le`). What is parsed is found in
the text: the strings and locations of a tree are in it in order, each within the
location around it (`Fits`), and a pattern that is not nullable comes further
(`run_good`). This holds of what the tables keep as well.
-/

namespace Dezyne.Peg

variable {N A U : Type}

/-! ## Patterns -/

mutual
def Pattern.syms : Pattern N → List N
  | .any | .str _ | .range _ _ => []
  | .sym n => [n]
  | .ignore p | .capture p | .star p | .plus p | .opt p | .followedBy p | .notFollowedBy p | .expect p => p.syms
  | .and ps | .or ps => Pattern.symsAll ps

def Pattern.symsAll : List (Pattern N) → List N
  | [] => []
  | p :: ps => p.syms ++ Pattern.symsAll ps
end

mutual
def Pattern.size : Pattern N → Nat
  | .any | .str _ | .range _ _ | .sym _ => 1
  | .ignore p | .capture p | .star p | .plus p | .opt p | .followedBy p | .notFollowedBy p | .expect p => p.size + 1
  | .and ps | .or ps => Pattern.sizeAll ps + 1

def Pattern.sizeAll : List (Pattern N) → Nat
  | [] => 0
  | p :: ps => p.size + Pattern.sizeAll ps
end

/-- A pattern in another one. -/
def Pattern.In (q p : Pattern N) : Prop := q.size < p.size ∧ ∀ n ∈ q.syms, n ∈ p.syms

theorem Pattern.size_pos (p : Pattern N) : 0 < p.size := by
  cases p <;> simp only [Pattern.size] <;> omega

theorem Pattern.le_sizeAll {p : Pattern N} {ps : List (Pattern N)} (h : p ∈ ps) : p.size ≤ Pattern.sizeAll ps := by
  induction ps with
  | nil => cases h
  | cons q ps ih =>
    rw [Pattern.sizeAll]
    rcases List.mem_cons.mp h with rfl | h
    · exact Nat.le_add_right _ _
    · exact Nat.le_trans (ih h) (Nat.le_add_left _ _)

theorem Pattern.mem_symsAll {p : Pattern N} {ps : List (Pattern N)} (h : p ∈ ps) {n : N} (hn : n ∈ p.syms) :
    n ∈ Pattern.symsAll ps := by
  induction ps with
  | nil => cases h
  | cons q ps ih =>
    rw [Pattern.symsAll]
    rcases List.mem_cons.mp h with rfl | h
    · exact List.mem_append_left _ hn
    · exact List.mem_append_right _ (ih h)

theorem Pattern.in_and {p : Pattern N} {ps : List (Pattern N)} (h : p ∈ ps) : p.In (.and ps) :=
  ⟨Nat.lt_succ_of_le (le_sizeAll h), fun _ hn => mem_symsAll h hn⟩

theorem Pattern.in_or {p : Pattern N} {ps : List (Pattern N)} (h : p ∈ ps) : p.In (.or ps) :=
  ⟨Nat.lt_succ_of_le (le_sizeAll h), fun _ hn => mem_symsAll h hn⟩

/-! ## Related parsers -/

/-- The same outcome, in related states; anything is as good when no fuel is left. -/
def Outcome.Rel (V : State N U → State N U → Prop) : Outcome N U → Outcome N U → Prop
  | .timeout, _ => True
  | .ok stop d st, .ok stop' d' st' => stop' = stop ∧ d' = d ∧ V st st'
  | .fail st, .fail st' => V st st'
  | .error start p, .error start' p' => start' = start ∧ p' = p
  | _, _ => False

section
variable {V : State N U → State N U → Prop}

theorem Outcome.Rel.bind {o o' : Outcome N U} {f f' : Nat → Datum → State N U → Outcome N U} (h : o.Rel V o')
    (hf : ∀ stop d st st', V st st' → (f stop d st).Rel V (f' stop d st')) : (o.bind f).Rel V (o'.bind f') := by
  cases o with
  | timeout => trivial
  | ok stop d st =>
    cases o' with
    | ok stop' d' st' =>
      obtain ⟨rfl, rfl, hv⟩ := h
      exact hf _ _ _ _ hv
    | _ => exact h.elim
  | fail st => cases o' with
    | fail st' => exact h
    | _ => exact h.elim
  | error start p => cases o' with
    | error start' p' => exact h
    | _ => exact h.elim

theorem Outcome.Rel.orElse {o o' : Outcome N U} {f f' : State N U → Outcome N U} (h : o.Rel V o')
    (hf : ∀ st st', V st st' → (f st).Rel V (f' st')) : (o.orElse f).Rel V (o'.orElse f') := by
  cases o with
  | timeout => trivial
  | ok stop d st =>
    cases o' with
    | ok stop' d' st' => exact h
    | _ => exact h.elim
  | fail st => cases o' with
    | fail st' => exact hf _ _ h
    | _ => exact h.elim
  | error start p => cases o' with
    | error start' p' => exact h
    | _ => exact h.elim

theorem runAnd_rel {f g : Pattern N → Nat → State N U → Outcome N U} {accum : Accum} (ps : List (Pattern N))
    (h : ∀ p ∈ ps, ∀ pos st st', V st st' → (f p pos st).Rel V (g p pos st')) (pos : Nat) (body : List Datum)
    (st st' : State N U) (hv : V st st') : (runAnd f accum ps pos body st).Rel V (runAnd g accum ps pos body st') := by
  induction ps generalizing pos body st st' with
  | nil => exact ⟨rfl, rfl, hv⟩
  | cons p ps ih =>
    exact (h p List.mem_cons_self pos st st' hv).bind fun stop d st st' hv =>
      ih (fun q hq => h q (List.mem_cons_of_mem p hq)) _ _ _ _ hv

theorem runOr_rel {f g : Pattern N → Nat → State N U → Outcome N U} (ps : List (Pattern N))
    (h : ∀ p ∈ ps, ∀ pos st st', V st st' → (f p pos st).Rel V (g p pos st')) (pos : Nat)
    (st st' : State N U) (hv : V st st') : (runOr f ps pos st).Rel V (runOr g ps pos st') := by
  induction ps generalizing st st' with
  | nil => exact hv
  | cons p ps ih =>
    exact (h p List.mem_cons_self pos st st' hv).orElse fun st st' hv =>
      ih (fun q hq => h q (List.mem_cons_of_mem p hq)) _ _ hv

theorem turn_rel {f g : Nat → State N U → Outcome N U} {further further' : Nat → Datum → State N U → Outcome N U}
    {done done' : State N U → Outcome N U} {pos : Nat} {st st' : State N U} (h : (f pos st).Rel V (g pos st'))
    (hfurther : ∀ stop d st st', V st st' → (further stop d st).Rel V (further' stop d st'))
    (hdone : ∀ st st', V st st' → (done st).Rel V (done' st')) :
    (turn f further done pos st).Rel V (turn g further' done' pos st') := by
  unfold turn
  generalize f pos st = o at h
  generalize g pos st' = o' at h
  cases o with
  | timeout => trivial
  | ok stop d st =>
    cases o' with
    | ok stop' d' st' =>
      obtain ⟨rfl, rfl, hv⟩ := h
      dsimp only
      split
      · exact hfurther _ _ _ _ hv
      · exact hdone _ _ hv
    | _ => exact h.elim
  | fail st => cases o' with
    | fail st' => exact hdone _ _ h
    | _ => exact h.elim
  | error start p => cases o' with
    | error start' p' => exact h
    | _ => exact h.elim

theorem loop_rel {f g : Nat → State N U → Outcome N U} {ret ret' : Nat → Nat → List Datum → State N U → Outcome N U}
    (h : ∀ pos st st', V st st' → (f pos st).Rel V (g pos st'))
    (hret : ∀ pos count body st st', V st st' → (ret pos count body st).Rel V (ret' pos count body st')) (fuel : Nat)
    (pos count : Nat) (body : List Datum) (st st' : State N U) (hv : V st st') :
    (loop f ret fuel pos count body st).Rel V (loop g ret' fuel pos count body st') := by
  induction fuel generalizing pos count body st st' with
  | zero => trivial
  | succ fuel ih =>
    exact turn_rel (h pos st st' hv) (fun stop d st st' hv => ih _ _ _ _ _ hv) fun st st' hv => hret _ _ _ _ _ hv

theorem wrap_rel {input : Input N} {accum : Accum} {name : List Char} {skip skip' f g : Nat → State N U → Outcome N U}
    (hskip : ∀ pos st st', V st st' → (skip pos st).Rel V (skip' pos st'))
    (h : ∀ pos st st', V st st' → (f pos st).Rel V (g pos st')) (pos : Nat) (st st' : State N U) (hv : V st st') :
    (wrap input accum name skip f pos st).Rel V (wrap input accum name skip' g pos st') :=
  (hskip pos st st' hv).bind fun _ _ _ _ hv => (h _ _ _ hv).bind fun _ _ _ _ hv => ⟨rfl, rfl, hv⟩

variable [DecidableEq N] {G : Grammar N A U} {c c' : Bool} {f g : Parser N U} {input : Input N}

/-- Parsers are related on a pattern when they are on the patterns in it and on identifiers. -/
theorem step_rel {p : Pattern N}
    (h : ∀ q, q.In p → ∀ accum pos st st', V st st' → (f input q accum pos st).Rel V (g input q accum pos st'))
    (hsym : ∀ n, p = .sym n → ∀ pos st st', V st st' →
      (runSym G c f input n pos st).Rel V (runSym G c' g input n pos st'))
    (accum : Accum) (pos : Nat) (st st' : State N U) (hv : V st st') :
    (step G c f input p accum pos st).Rel V (step G c' g input p accum pos st') := by
  have hok : ∀ stop d (st st' : State N U), V st st' → (Outcome.ok stop d st).Rel V (.ok stop d st') :=
    fun _ _ _ _ hv => ⟨rfl, rfl, hv⟩
  have hone : ∀ q : Pattern N, q.size + 1 = p.size → q.syms = p.syms → q.In p :=
    fun q hsize hsyms => ⟨by omega, fun n hn => hsyms ▸ hn⟩
  cases p with
  | any =>
    simp only [step]
    split
    · exact hok _ _ _ _ hv
    · exact hv
  | sym n => exact hsym n rfl pos st st' hv
  | str s =>
    simp only [step]
    split
    · exact hok _ _ _ _ hv
    · exact hv
  | range first last =>
    simp only [step]
    cases input.text[pos]? with
    | none => exact hv
    | some x =>
      dsimp only
      split
      · exact hok _ _ _ _ hv
      · exact hv
  | ignore q => exact h q (hone q rfl rfl) _ _ _ _ hv
  | capture q => exact h q (hone q rfl rfl) _ _ _ _ hv
  | and ps => exact runAnd_rel ps (fun q hq pos st st' => h q (Pattern.in_and hq) _ pos st st') _ _ _ _ hv
  | or ps => exact runOr_rel ps (fun q hq pos st st' => h q (Pattern.in_or hq) _ pos st st') _ _ _ hv
  | star q =>
    refine loop_rel (fun pos st st' => h q (hone q rfl rfl) _ pos st st') (fun _ _ _ st st' hv => ?_) _ _ _ _ _ _ hv
    exact hok _ _ _ _ hv
  | plus q =>
    refine loop_rel (fun pos st st' => h q (hone q rfl rfl) _ pos st st') (fun _ _ _ st st' hv => ?_) _ _ _ _ _ _ hv
    split
    · exact hok _ _ _ _ hv
    · exact hv
  | opt q =>
    exact turn_rel (h q (hone q rfl rfl) _ pos st st' hv) (fun _ _ st st' => hok _ _ st st')
      fun st st' => hok _ _ st st'
  | followedBy q =>
    exact turn_rel (h q (hone q rfl rfl) _ pos st st' hv) (fun _ _ st st' => hok _ _ st st') fun _ _ hv => hv
  | notFollowedBy q =>
    exact turn_rel (h q (hone q rfl rfl) _ pos st st' hv) (fun _ _ _ _ hv => hv) fun st st' => hok _ _ st st'
  | expect q => exact (h q (hone q rfl rfl) _ pos st st' hv).orElse fun _ _ _ => ⟨rfl, rfl⟩

end

/-! ## Fuel -/

theorem Outcome.Rel.eq {o o' : Outcome N U} (h : o.Rel Eq o') (ho : o ≠ .timeout) : o' = o := by
  cases o <;> cases o' <;> simp_all [Outcome.Rel]

theorem Outcome.Rel.refl (o : Outcome N U) : o.Rel Eq o := by
  cases o <;> simp [Outcome.Rel]

section
variable [DecidableEq N] {G : Grammar N A U} {c : Bool} {input : Input N}

theorem Outcome.Rel.store {o o' : Outcome N U} (h : o.Rel Eq o') (n : N) (str pos : Nat) :
    (o.store n str pos).Rel Eq (o'.store n str pos) := by
  cases o with
  | timeout => trivial
  | _ => cases h.eq nofun; exact Outcome.Rel.refl _

theorem runSym_le {f g : Parser N U}
    (h : ∀ input p accum pos st, (f input p accum pos st).Rel Eq (g input p accum pos st)) (n : N) (pos : Nat)
    (st : State N U) : (runSym G c f input n pos st).Rel Eq (runSym G c g input n pos st) := by
  have heq : ∀ (input : Input N) p accum pos (st st' : State N U), st = st' →
      (f input p accum pos st).Rel Eq (g input p accum pos st') := by
    rintro input p accum pos st _ rfl
    exact h input p accum pos st
  have hskip : ∀ pos (st st' : State N U), st = st' →
      (skipParser f input pos st).Rel Eq (skipParser g input pos st') := by
    rintro pos st _ rfl
    unfold skipParser
    split
    · exact .refl _
    · exact h _ _ _ _ _
  unfold runSym
  split
  next accum p _ =>
    have hwrap := @wrap_rel _ _ _ input accum (G.symbol n) _ _ _ _ hskip (heq input p accum) pos st st rfl
    dsimp only
    split
    · unfold cachedParser
      split
      · exact .refl _
      · exact hwrap.store n _ _
    · exact hwrap
  · exact h _ _ _ _ _
  · exact .refl _
  · refine (h _ _ _ _ _).bind ?_
    rintro stop d st _ rfl
    exact .refl _
  · exact h _ _ _ _ _

theorem run_rel_succ (fuel : Nat) : ∀ (input : Input N) (p : Pattern N) (accum : Accum) (pos : Nat) (st : State N U),
    (run G c fuel input p accum pos st).Rel Eq (run G c (fuel + 1) input p accum pos st) := by
  induction fuel with
  | zero => exact fun _ _ _ _ _ => trivial
  | succ fuel ih =>
    intro input p accum pos st
    refine step_rel (V := Eq) (fun q _ accum pos st st' hv => ?_) (fun n _ pos st st' hv => ?_) accum pos st st rfl
    · exact hv ▸ ih input q accum pos st
    · exact hv ▸ runSym_le ih n pos st

/-- More fuel changes no outcome. -/
theorem run_le {fuel fuel' : Nat} {p : Pattern N} {accum : Accum} {pos : Nat} {st : State N U} (hle : fuel ≤ fuel')
    (h : run G c fuel input p accum pos st ≠ .timeout) :
    run G c fuel' input p accum pos st = run G c fuel input p accum pos st := by
  induction hle with
  | refl => rfl
  | @step m _ ih => exact ((run_rel_succ m input p accum pos st).eq (ih ▸ h)).trans ih

end

/-! ## Trees in the text -/

/-- The strings and locations of these trees are in the text, in order, from `lo` to `hi`. -/
inductive Fits (text : List Char) : Nat → Nat → List Datum → Prop
  | nil {lo hi : Nat} : lo ≤ hi → Fits text lo hi []
  | symbol {lo hi : Nat} {s : List Char} {ds : List Datum} : Fits text lo hi ds → Fits text lo hi (.symbol s :: ds)
  | string {lo mid hi : Nat} {s : List Char} {ds : List Datum} : lo ≤ mid → s.Sublist (between text lo mid) →
      Fits text mid hi ds → Fits text lo hi (.string s :: ds)
  | list {lo mid hi : Nat} {cs ds : List Datum} : Fits text lo mid cs → Fits text mid hi ds →
      Fits text lo hi (.list cs :: ds)
  | node {lo a b hi : Nat} {name : List Char} {cs ds : List Datum} : lo ≤ a → Fits text a b cs → Fits text b hi ds →
      Fits text lo hi (.list (.symbol name :: cs ++ [location a b]) :: ds)
  /-- A comment is kept behind what comes after it. -/
  | commented {lo start a b hi : Nat} {name : List Char} {c : Datum} {cs ds : List Datum} : lo ≤ start →
      Fits text start a [c] → Fits text a b cs → Fits text b hi ds →
      Fits text lo hi (.list (.symbol name :: cs ++
        [.list [symbolOf "comment", c, location start a], location a b]) :: ds)

section
variable {text s : List Char} {lo mid hi : Nat} {ds es : List Datum} {d : Datum}

theorem between_append (hlo : lo ≤ mid) (hhi : mid ≤ hi) :
    between text lo mid ++ between text mid hi = between text lo hi := by
  have hlen : hi - lo = (mid - lo) + (hi - mid) := by omega
  rw [between, between, between, hlen, List.take_add, List.drop_drop, Nat.add_sub_cancel' hlo]

theorem between_sublist {lo' hi' : Nat} (hlo : lo' ≤ lo) (h : lo ≤ hi) (hhi : hi ≤ hi') :
    (between text lo hi).Sublist (between text lo' hi') := by
  rw [← between_append (Nat.le_trans hlo h) hhi, ← between_append hlo h]
  exact (List.sublist_append_right _ _).trans (List.sublist_append_left _ _)

theorem Fits.le (h : Fits text lo hi ds) : lo ≤ hi := by
  induction h with
  | nil h => exact h
  | symbol _ ih => exact ih
  | string h _ _ ih => exact Nat.le_trans h ih
  | list _ _ ih ih' => exact Nat.le_trans ih ih'
  | node h _ _ ih ih' => exact Nat.le_trans h (Nat.le_trans ih ih')
  | commented h _ _ _ ih ih' ih'' => exact Nat.le_trans h (Nat.le_trans ih (Nat.le_trans ih' ih''))

theorem Fits.mono_left (h : Fits text mid hi ds) (hle : lo ≤ mid) : Fits text lo hi ds := by
  induction h generalizing lo with
  | nil h => exact .nil (Nat.le_trans hle h)
  | symbol _ ih => exact .symbol (ih hle)
  | string h hs hds _ => exact .string (Nat.le_trans hle h) (hs.trans (between_sublist hle h (Nat.le_refl _))) hds
  | list _ hds ih _ => exact .list (ih hle) hds
  | node h hcs hds _ _ => exact .node (Nat.le_trans hle h) hcs hds
  | commented h hc hcs hds _ _ _ => exact .commented (Nat.le_trans hle h) hc hcs hds

theorem Fits.append (h : Fits text lo mid ds) (h' : Fits text mid hi es) : Fits text lo hi (ds ++ es) := by
  induction h with
  | nil hle => exact h'.mono_left hle
  | symbol _ ih => exact .symbol (ih h')
  | string hle hs _ ih => exact .string hle hs (ih h')
  | list hcs _ _ ih => exact .list hcs (ih h')
  | node hle hcs _ _ ih => exact .node hle hcs (ih h')
  | commented hle hc hcs _ _ _ ih => exact .commented hle hc hcs (ih h')

theorem Fits.mono_right (h : Fits text lo mid ds) (hle : mid ≤ hi) : Fits text lo hi ds := by
  have := h.append (.nil hle)
  rwa [List.append_nil] at this

/-- The trees of a list that is no node. -/
theorem Fits.of_list (h : Fits text lo hi [.list ds]) (hds : ∀ s es, ds ≠ .symbol s :: es) : Fits text lo hi ds := by
  cases h with
  | list hcs hnil => exact hcs.mono_right hnil.le
  | node => exact absurd rfl (hds _ _)
  | commented => exact absurd rfl (hds _ _)

theorem Fits.singleFilter (h : Fits text lo hi [d]) : Fits text lo hi [singleFilter d] := by
  unfold Peg.singleFilter
  split
  next x =>
    cases x with
    | symbol s => exact .symbol (.nil h.le)
    | _ => exact h.of_list (by simp)
  next => exact h

theorem Fits.pushNotNull (h : Fits text lo mid ds) (h' : Fits text mid hi [d]) :
    Fits text lo hi (pushNotNull ds d) := by
  unfold Peg.pushNotNull
  split
  · exact h.mono_right h'.le
  · exact h.append h'

theorem Fits.genericRet (h : Fits text lo hi ds) (accum : Accum) (name : String) :
    Fits text lo hi [genericRet accum name ds] := by
  have hnil : Fits text hi hi [] := .nil (Nat.le_refl _)
  unfold Peg.genericRet
  cases accum with
  | all =>
    cases ds with
    | nil => exact .symbol (.nil h.le)
    | cons d ds =>
      cases d with
      | symbol s => exact .list (.symbol (.list h hnil)) hnil
      | _ =>
        refine .list (.symbol ?_) hnil
        change Fits text lo hi (_ ++ [])
        rwa [List.append_nil]
  | name => exact .symbol (.nil h.le)
  | body => exact Fits.singleFilter (.list h hnil)
  | none => exact .list (.nil h.le) hnil

theorem Fits.leaf (hle : lo ≤ hi) (hs : s.Sublist (between text lo hi)) (accum : Accum) (name : String) :
    Fits text lo hi [leaf accum name s] := by
  have hnil : Fits text hi hi [] := .nil (Nat.le_refl _)
  cases accum with
  | all => exact .list (.symbol (.string hle hs hnil)) hnil
  | name => exact .symbol (.nil hle)
  | body => exact .string hle hs hnil
  | none => exact .list (.nil hle) hnil

/-- A nonterminal with its comment and its location. -/
theorem Fits.tagged {start first stop : Nat} {body comment : Datum} (name : List Char)
    (hc : Fits text start first [comment]) (h : Fits text first stop [body]) :
    Fits text start stop [tagged (.symbol name) body (annotate true comment start first stop)] := by
  have hnil : Fits text stop stop [] := .nil (Nat.le_refl _)
  have hcs : ∃ cs, Fits text first stop cs ∧
      ∀ as, Peg.tagged (.symbol name) body as = .list (.symbol name :: cs ++ as) := by
    unfold Peg.tagged
    split
    · exact ⟨[], .nil h.le, fun _ => rfl⟩
    next s es => exact ⟨[.list (.symbol s :: es)], h, fun _ => rfl⟩
    next es _ hes => exact ⟨es, h.of_list fun s es' heq => hes s es' (heq ▸ rfl), fun _ => rfl⟩
    next => exact ⟨[_], h, fun _ => rfl⟩
  obtain ⟨cs, hcs, heq⟩ := hcs
  rw [heq]
  unfold annotate
  split
  · exact .node hc.le hcs hnil
  · exact .commented (Nat.le_refl _) (.list hc (.nil (Nat.le_refl _))) hcs hnil
  · contradiction
  · contradiction

theorem Fits.wrapped {start first stop : Nat} {body comment : Datum} (accum : Accum) (name : List Char)
    (hc : Fits text start first [comment]) (h : Fits text first stop [body]) :
    Fits text start stop [wrapped accum name body (annotate true comment start first stop)] := by
  have hle := Nat.le_trans hc.le h.le
  cases accum with
  | name => exact .symbol (.nil hle)
  | all => exact Fits.tagged name hc h
  | none => exact .list (.nil hle) (.nil (Nat.le_refl _))
  | body => exact h.mono_left hc.le

end

/-! ## Positions -/

/-- What is known of identifiers: they may come to nothing, they come to the end of the text. -/
structure Facts (N : Type) where
  nul : N → Bool
  ends : N → Bool

/-- What is known of a pattern: whether it may come to nothing; it comes to the end of the text; it comes no further at
the end only; it fails at the end only. -/
structure Flags where
  nullable : Bool
  ends : Bool
  stalls : Bool
  total : Bool

def Flags.of (nullable ends total : Bool) : Flags := ⟨nullable, ends, !nullable || ends, total⟩

mutual
def Pattern.flags (F : Facts N) : Pattern N → Flags
  | .any => .of false false true
  | .range _ _ => .of false false false
  | .str s => .of s.isEmpty false false
  | .sym n => .of (F.nul n) (F.ends n) false
  | .ignore p | .capture p => p.flags F
  | .expect p => { p.flags F with total := true }
  | .and ps => Pattern.flagsAnd F ps
  | .or ps => Pattern.flagsOr F ps
  | .star p => .of true ((p.flags F).total && (p.flags F).stalls) false
  | .plus p => .of false ((p.flags F).total && (p.flags F).stalls) false
  | .notFollowedBy p => .of true ((p.flags F).total && (p.flags F).stalls) false
  | .opt _ | .followedBy _ => .of true false false

def Pattern.flagsAnd (F : Facts N) : List (Pattern N) → Flags
  | [] => .of true false false
  | p :: ps =>
    let rest := Pattern.flagsAnd F ps
    .of ((p.flags F).nullable && rest.nullable) (if ps.isEmpty then (p.flags F).ends else rest.ends) false

def Pattern.flagsOr (F : Facts N) : List (Pattern N) → Flags
  | [] => ⟨false, true, true, false⟩
  | p :: ps =>
    let rest := Pattern.flagsOr F ps
    ⟨(p.flags F).nullable || rest.nullable, (p.flags F).ends && rest.ends, (p.flags F).stalls && rest.stalls, false⟩
end

def Definition.flags (F : Facts N) : Definition N A → Flags
  | .peg _ p | .skip _ p => p.flags F
  | .proc (.act _) => .of true false false
  | .proc (.named m _) | .proc (.noSkip m) => .of (F.nul m) (F.ends m) false

/-- The facts follow from the definitions. -/
def Facts.Sound (F : Facts N) (G : Grammar N A U) : Prop :=
  ∀ n, (!((G.rule n).flags F).nullable || F.nul n) && (!F.ends n || ((G.rule n).flags F).ends)

/-- What is parsed from `pos` is in the text, and it is what the flags say. -/
structure Parsed (text : List Char) (locations : Bool) (fl : Flags) (pos stop : Nat) (d : Datum) : Prop where
  le : pos ≤ stop
  stop_le : stop ≤ max pos text.length
  lt : fl.nullable = false → pos < stop
  last : fl.ends = true → pos ≤ text.length → stop = text.length
  stall : fl.stalls = true → stop ≤ pos → pos ≤ text.length → pos = text.length
  fits : locations = true → Fits text pos stop [d]

theorem Parsed.of {text : List Char} {locations : Bool} {nullable ends total : Bool} {pos stop : Nat} {d : Datum}
    (hle : pos ≤ stop) (hstop : stop ≤ max pos text.length) (hlt : nullable = false → pos < stop)
    (hlast : ends = true → pos ≤ text.length → stop = text.length) (hfits : locations = true → Fits text pos stop [d]) :
    Parsed text locations (.of nullable ends total) pos stop d := by
  refine ⟨hle, hstop, hlt, hlast, fun hstall hge hpos => ?_, hfits⟩
  rcases Bool.or_eq_true_iff.mp hstall with hnull | hends
  · exact absurd (hlt (by simpa using hnull)) (Nat.not_lt_of_le hge)
  · exact Nat.le_antisymm hpos (hlast hends hpos ▸ hge)

theorem Parsed.nothing {text : List Char} {locations : Bool} (pos : Nat) :
    Parsed text locations (.of true false false) pos pos (.list []) :=
  .of (Nat.le_refl _) (Nat.le_max_left _ _) nofun nofun fun _ => .list (.nil (Nat.le_refl _)) (.nil (Nat.le_refl _))

/-- What is known when nothing is known of the pattern. -/
theorem Parsed.anything {text : List Char} {locations : Bool} {fl : Flags} {pos stop : Nat} {d : Datum}
    (h : Parsed text locations fl pos stop d) : Parsed text locations (.of true false false) pos stop d :=
  .of h.le h.stop_le nofun nofun h.fits

/-- What is kept was parsed. -/
def State.Good (F : Facts N) (input : Input N) (st : State N U) : Prop :=
  ∀ n slot e stop d, st.cache n slot = some e → e.str = input.str → e.res = some (stop, d) →
    Parsed input.text input.locations (.of (F.nul n) (F.ends n) false) e.start stop d

/-- A result with `P`, or a failure with `R`. -/
def Outcome.Good (F : Facts N) (input : Input N) (P : Nat → Datum → Prop) (R : Prop) : Outcome N U → Prop
  | .ok stop d st => P stop d ∧ st.Good F input
  | .fail st => R ∧ st.Good F input
  | _ => True

/-- The outcome at `pos` is what the flags say. -/
def Outcome.GoodAt (F : Facts N) (input : Input N) (fl : Flags) (pos : Nat) (o : Outcome N U) : Prop :=
  o.Good F input (Parsed input.text input.locations fl pos) (fl.total = true → input.text.length ≤ pos)

section
variable {F : Facts N} {input : Input N} {P Q : Nat → Datum → Prop} {R R' : Prop} {o : Outcome N U} {fl : Flags}

theorem Outcome.Good.bind {f : Nat → Datum → State N U → Outcome N U} (h : o.Good F input P R) (hR : R → R')
    (hf : ∀ stop d st, P stop d → st.Good F input → (f stop d st).Good F input Q R') :
    (o.bind f).Good F input Q R' := by
  cases o with
  | ok stop d st => exact hf stop d st h.1 h.2
  | fail st => exact ⟨hR h.1, h.2⟩
  | _ => exact h

theorem Outcome.Good.orElse {f : State N U → Outcome N U} (h : o.Good F input P R)
    (hf : ∀ st, st.Good F input → (f st).Good F input P R') : (o.orElse f).Good F input P R' := by
  cases o with
  | fail st => exact hf st h.2
  | _ => exact h

theorem Outcome.Good.mono (h : o.Good F input P R) (hP : ∀ stop d, P stop d → Q stop d) (hR : R → R') :
    o.Good F input Q R' := by
  cases o with
  | ok stop d st => exact ⟨hP stop d h.1, h.2⟩
  | fail st => exact ⟨hR h.1, h.2⟩
  | _ => exact h

theorem runAnd_good {f : Pattern N → Nat → State N U → Outcome N U} {accum : Accum}
    (h : ∀ p pos st, st.Good F input → (f p pos st).GoodAt F input (p.flags F) pos)
    (ps : List (Pattern N)) {start pos : Nat} {body : List Datum} {st : State N U} (hle : start ≤ pos)
    (hpos : pos ≤ max start input.text.length)
    (hbody : input.locations = true → Fits input.text start pos body) (hst : st.Good F input) :
    (runAnd f accum ps pos body st).Good F input (fun stop d => pos ≤ stop ∧ stop ≤ max start input.text.length ∧
      ((Pattern.flagsAnd F ps).nullable = false → pos < stop) ∧
      ((Pattern.flagsAnd F ps).ends = true → pos ≤ input.text.length → stop = input.text.length) ∧
      (input.locations = true → Fits input.text start stop [d])) True := by
  induction ps generalizing pos body st with
  | nil => exact ⟨⟨Nat.le_refl _, hpos, nofun, nofun, fun hl => (hbody hl).genericRet _ _⟩, hst⟩
  | cons p ps ih =>
    refine Outcome.Good.bind (h p pos st hst) (fun _ => trivial) fun mid d st hd hst => ?_
    have hmid : mid ≤ max start input.text.length := Nat.le_trans hd.stop_le (by omega)
    have hbody' := fun hl => (hbody hl).pushNotNull (hd.fits hl).singleFilter
    cases ps with
    | nil =>
      refine ⟨⟨hd.le, hmid, fun hnull => hd.lt ?_, hd.last, fun hl => (hbody' hl).genericRet _ _⟩, hst⟩
      exact (Bool.and_eq_false_iff.mp hnull).resolve_right nofun
    | cons q ps =>
      refine (ih (Nat.le_trans hle hd.le) hmid hbody' hst).mono ?_ id
      rintro stop d' ⟨hmids, hstop, hlt, hlast, hfits⟩
      refine ⟨Nat.le_trans hd.le hmids, hstop, fun hnull => ?_, fun hends hpos => hlast hends ?_, hfits⟩
      · rcases Bool.and_eq_false_iff.mp hnull with hp | hps
        · exact Nat.lt_of_lt_of_le (hd.lt hp) hmids
        · exact Nat.lt_of_le_of_lt hd.le (hlt hps)
      · exact Nat.le_trans hd.stop_le (Nat.max_le.mpr ⟨hpos, Nat.le_refl _⟩)

theorem runOr_good {f : Pattern N → Nat → State N U → Outcome N U} {pos : Nat}
    (h : ∀ p st, st.Good F input → (f p pos st).GoodAt F input (p.flags F) pos)
    (ps : List (Pattern N)) {st : State N U} (hst : st.Good F input) :
    (runOr f ps pos st).GoodAt F input (Pattern.flagsOr F ps) pos := by
  induction ps generalizing st with
  | nil => exact ⟨nofun, hst⟩
  | cons p ps ih =>
    refine Outcome.Good.orElse (Outcome.Good.mono (h p st hst) (fun stop d hd => ?_) id) fun st hst =>
      Outcome.Good.mono (ih hst) (fun stop d hd => ?_) fun _ => nofun
    · refine ⟨hd.le, hd.stop_le, fun hnull => hd.lt ?_, fun hends => hd.last ?_, fun hstall => hd.stall ?_, hd.fits⟩
      · exact (Bool.or_eq_false_iff.mp hnull).1
      · exact (Bool.and_eq_true_iff.mp hends).1
      · exact (Bool.and_eq_true_iff.mp hstall).1
    · refine ⟨hd.le, hd.stop_le, fun hnull => hd.lt ?_, fun hends => hd.last ?_, fun hstall => hd.stall ?_, hd.fits⟩
      · exact (Bool.or_eq_false_iff.mp hnull).2
      · exact (Bool.and_eq_true_iff.mp hends).2
      · exact (Bool.and_eq_true_iff.mp hstall).2

/-- At `pos` a pattern that is total and stalls at the end only has failed, or has come no further. -/
def AtEnd (input : Input N) (fl : Flags) (pos : Nat) : Prop :=
  (fl.total && fl.stalls) = true → pos ≤ input.text.length → pos = input.text.length

theorem turn_good {f : Nat → State N U → Outcome N U} {further : Nat → Datum → State N U → Outcome N U}
    {done : State N U → Outcome N U} {pos : Nat} {st : State N U} (h : (f pos st).GoodAt F input fl pos)
    (hfurther : ∀ stop d st, pos < stop → stop ≤ input.text.length →
      (input.locations = true → Fits input.text pos stop [d]) → st.Good F input → (further stop d st).Good F input P R)
    (hdone : ∀ st, AtEnd input fl pos → st.Good F input → (done st).Good F input P R) :
    (turn f further done pos st).Good F input P R := by
  unfold turn
  generalize f pos st = o at h
  cases o with
  | ok stop d st =>
    obtain ⟨hd, hst⟩ := h
    dsimp only
    split
    next hlt =>
      have hstop := hd.stop_le
      exact hfurther stop d st hlt (by omega) hd.fits hst
    next hge =>
      exact hdone st (fun hboth hpos => hd.stall (Bool.and_eq_true_iff.mp hboth).2 (Nat.le_of_not_lt hge) hpos) hst
  | fail st =>
    exact hdone st (fun hboth hpos => Nat.le_antisymm hpos (h.1 (Bool.and_eq_true_iff.mp hboth).1)) h.2
  | _ => trivial

/-- The result of a loop is one that it returns after some rounds, each of which came further. -/
theorem loop_good {f : Nat → State N U → Outcome N U} {ret : Nat → Nat → List Datum → State N U → Outcome N U}
    {start : Nat} (h : ∀ pos st, st.Good F input → (f pos st).GoodAt F input fl pos)
    (hret : ∀ pos count body st, start ≤ pos → pos ≤ max start input.text.length → (0 < count → start < pos) →
      AtEnd input fl pos → (input.locations = true → Fits input.text start pos body) → st.Good F input →
      (ret pos count body st).Good F input P R) (fuel : Nat) {pos count : Nat} {body : List Datum} {st : State N U}
    (hle : start ≤ pos) (hpos : pos ≤ max start input.text.length) (hcount : 0 < count → start < pos)
    (hbody : input.locations = true → Fits input.text start pos body) (hst : st.Good F input) :
    (loop f ret fuel pos count body st).Good F input P R := by
  induction fuel generalizing pos count body st with
  | zero => trivial
  | succ fuel ih =>
    refine turn_good (h pos st hst) (fun stop d st hlt hstop hfits hst => ?_) fun st hend hst =>
      hret pos count body st hle hpos hcount hend hbody hst
    exact ih (by omega) (by omega) (fun _ => by omega) (fun hl => (hbody hl).pushNotNull (hfits hl).singleFilter) hst

theorem wrap_good {accum : Accum} {name : List Char} {skip f : Nat → State N U → Outcome N U} {pos : Nat}
    {st : State N U} (hskip : (skip pos st).GoodAt F input (.of true false false) pos)
    (h : ∀ pos st, st.Good F input → (f pos st).GoodAt F input fl pos) :
    (wrap input accum name skip f pos st).GoodAt F input { fl with total := false } pos := by
  refine Outcome.Good.bind hskip (fun _ => nofun) fun first comment st hc hst =>
    Outcome.Good.bind (h first st hst) (fun _ => nofun) fun stop body st hb hst => ⟨?_, hst⟩
  have hfirst := hc.stop_le
  have hstop := hb.stop_le
  have hle := hc.le
  have hles := hb.le
  refine ⟨by omega, by omega, fun hnull => ?_, fun hends hpos => hb.last hends (by omega), fun hstall hge hpos => ?_,
    fun hl => ?_⟩
  · exact Nat.lt_of_le_of_lt hc.le (hb.lt hnull)
  · have := hb.stall hstall (by omega) (by omega)
    omega
  · rw [hl]
    exact Fits.wrapped accum name (hc.fits hl) (hb.fits hl)

theorem State.Good.find {st : State N U} (h : st.Good F input) {n : N} {pos stop : Nat} {d : Datum}
    (hfind : st.find n input.str pos = some (some (stop, d))) :
    Parsed input.text input.locations (.of (F.nul n) (F.ends n) false) pos stop d := by
  unfold State.find at hfind
  split at hfind
  next e he =>
    split at hfind
    next heq =>
      obtain ⟨hstr, rfl⟩ := heq
      exact h n _ e stop d he hstr (Option.some.inj hfind)
    next => cases hfind
  next => cases hfind

theorem init_good (u : U) : (State.init u : State N U).Good F input := fun _ _ _ _ _ h => nomatch h

/-- What is known of a definition holds of what it defines. -/
theorem Parsed.ofDefinition {G : Grammar N A U} (hF : F.Sound G) {n : N} {pos stop : Nat} {d : Datum} {fl : Flags}
    (hfl : fl.nullable = ((G.rule n).flags F).nullable ∧ fl.ends = ((G.rule n).flags F).ends)
    (h : Parsed input.text input.locations fl pos stop d) :
    Parsed input.text input.locations (.of (F.nul n) (F.ends n) false) pos stop d := by
  have hn := hF n
  simp only [Bool.and_eq_true, Bool.or_eq_true, Bool.not_eq_true'] at hn
  refine .of h.le h.stop_le (fun hnull => h.lt ?_) (fun hends => h.last ?_) h.fits
  · exact hfl.1 ▸ hn.1.resolve_right (by simp [hnull])
  · exact hfl.2 ▸ hn.2.resolve_left (by simp [hends])

variable [DecidableEq N]

theorem State.Good.set {st : State N U} (h : st.Good F input) {n : N} {slot pos : Nat} {res : Option (Nat × Datum)}
    (hres : ∀ stop d, res = some (stop, d) →
      Parsed input.text input.locations (.of (F.nul n) (F.ends n) false) pos stop d) :
    (st.set n slot ⟨input.str, pos, res⟩).Good F input := by
  intro m i e stop d he hstr hd
  unfold State.set at he
  dsimp only at he
  split at he
  next heq =>
    obtain ⟨rfl, -⟩ := heq
    cases he
    exact hres stop d hd
  next => exact h m i e stop d he hstr hd

theorem cachedParser_good {f : Nat → State N U → Outcome N U} {n : N} {pos : Nat} {st : State N U}
    (h : (f pos st).GoodAt F input (.of (F.nul n) (F.ends n) false) pos) (hst : st.Good F input) :
    (cachedParser n input.str f pos st).GoodAt F input (.of (F.nul n) (F.ends n) false) pos := by
  unfold cachedParser
  split
  next res hfind =>
    cases res with
    | none => exact ⟨nofun, hst⟩
    | some r => exact ⟨hst.find hfind, hst⟩
  next =>
    generalize f pos st = o at h
    cases o with
    | ok stop d st =>
      refine ⟨h.1, h.2.set fun stop' d' hres => ?_⟩
      cases hres
      exact h.1
    | fail st => exact ⟨nofun, State.Good.set h.2 nofun⟩
    | _ => trivial

variable {G : Grammar N A U} {c : Bool} {f : Parser N U}

theorem runSym_good (hF : F.Sound G)
    (h : ∀ skip p accum pos st, st.Good F input →
      (f { input with skip := skip } p accum pos st).GoodAt F input (p.flags F) pos)
    (n : N) (pos : Nat) (st : State N U) (hst : st.Good F input) :
    (runSym G c f input n pos st).GoodAt F input (.of (F.nul n) (F.ends n) false) pos := by
  have hf := h input.skip
  unfold runSym
  split
  next accum p hrule =>
    have hskip : (skipParser f input pos st).GoodAt F input (.of true false false) pos := by
      unfold skipParser
      split
      · exact ⟨.nothing _, hst⟩
      next q _ => exact (hf (.star q) .all pos st hst).mono (fun _ _ hd => hd.anything) fun _ => nofun
    have hwrap : (wrap input accum (G.symbol n) (skipParser f input) (f input p accum) pos st).GoodAt F input
        (.of (F.nul n) (F.ends n) false) pos :=
      Outcome.Good.mono (wrap_good hskip (hf p accum))
        (fun stop d hd => hd.ofDefinition hF (by rw [hrule]; exact ⟨rfl, rfl⟩)) fun _ => nofun
    dsimp only
    split
    · exact cachedParser_good hwrap hst
    · exact hwrap
  next accum p hrule =>
    exact Outcome.Good.mono (hf p accum pos st hst)
      (fun stop d hd => hd.ofDefinition hF (n := n) (by rw [hrule]; exact ⟨rfl, rfl⟩)) fun _ => nofun
  next a hrule =>
    split
    · exact ⟨(Parsed.nothing _).ofDefinition hF (by rw [hrule]; exact ⟨rfl, rfl⟩), hst⟩
    · exact ⟨nofun, hst⟩
  next m a hrule =>
    refine Outcome.Good.bind (hf (.sym m) .body pos st hst) (fun _ => nofun) fun stop d st hd hst => ?_
    split
    · exact ⟨hd.ofDefinition hF (n := n) (by rw [hrule]; exact ⟨rfl, rfl⟩), hst⟩
    · exact ⟨nofun, hst⟩
  next m hrule =>
    exact Outcome.Good.mono (h none (.sym m) .body pos st hst)
      (fun stop d hd => hd.ofDefinition hF (n := n) (by rw [hrule]; exact ⟨rfl, rfl⟩)) fun _ => nofun

theorem between_one {text : List Char} {pos : Nat} {x : Char} (h : text[pos]? = some x) :
    between text pos (pos + 1) = [x] := by
  obtain ⟨hlt, rfl⟩ := List.getElem?_eq_some_iff.mp h
  rw [between, Nat.add_sub_cancel_left, List.drop_eq_getElem_cons hlt]
  rfl

theorem lt_length_of_between {text s : List Char} {pos : Nat} (h : between text pos (pos + s.length) = s)
    (hs : s ≠ []) : pos + s.length ≤ text.length := by
  have hlen := congrArg List.length h
  have hpos := List.length_pos_iff.mpr hs
  rw [between, List.length_take, List.length_drop] at hlen
  omega

theorem step_good (hF : F.Sound G)
    (h : ∀ skip p accum pos st, st.Good F input →
      (f { input with skip := skip } p accum pos st).GoodAt F input (p.flags F) pos)
    (p : Pattern N) (accum : Accum) (pos : Nat) (st : State N U) (hst : st.Good F input) :
    (step G c f input p accum pos st).GoodAt F input (p.flags F) pos := by
  have hf := h input.skip
  have hhere : ∀ (accum : Accum) {ends total : Bool},
      (ends = true → pos ≤ input.text.length → pos = input.text.length) →
      Parsed input.text input.locations (.of true ends total) pos pos (genericRet accum "cg-body" []) :=
    fun accum _ _ hlast => .of (Nat.le_refl _) (Nat.le_max_left _ _) nofun hlast
      fun _ => Fits.genericRet (.nil (Nat.le_refl _)) _ _
  have hnil : input.locations = true → Fits input.text pos pos [] := fun _ => .nil (Nat.le_refl _)
  have hno : false = true → pos ≤ input.text.length → pos = input.text.length := nofun
  cases p with
  | any =>
    simp only [step]
    split
    next hlt =>
      refine ⟨.of (Nat.le_succ _) (by omega) (fun _ => Nat.lt_succ_self _) nofun fun _ => ?_, hst⟩
      exact Fits.leaf (Nat.le_succ _) (List.Sublist.refl _) _ _
    next hge => exact ⟨fun _ => Nat.le_of_not_lt hge, hst⟩
  | sym n => exact runSym_good hF h n pos st hst
  | str s =>
    simp only [step]
    split
    next heq =>
      refine ⟨.of (Nat.le_add_right _ _) ?_ (fun hnull => ?_) nofun fun _ => ?_, hst⟩
      · cases s with
        | nil => exact Nat.le_max_left _ _
        | cons x s => exact Nat.le_trans (lt_length_of_between heq nofun) (Nat.le_max_right _ _)
      · cases s with
        | nil => cases hnull
        | cons x s => exact Nat.lt_add_of_pos_right (Nat.succ_pos _)
      · exact Fits.leaf (Nat.le_add_right _ _) (by rw [heq]) _ _
    next => exact ⟨nofun, hst⟩
  | range first last =>
    simp only [step]
    cases hx : input.text[pos]? with
    | none => exact ⟨nofun, hst⟩
    | some x =>
      have hlt := (List.getElem?_eq_some_iff.mp hx).1
      dsimp only
      split
      · refine ⟨.of (Nat.le_succ _) (by omega) (fun _ => Nat.lt_succ_self _) nofun fun _ => ?_, hst⟩
        exact Fits.leaf (Nat.le_succ _) (by rw [between_one hx]) _ _
      · exact ⟨nofun, hst⟩
  | ignore q => exact hf q _ _ _ hst
  | capture q => exact hf q _ _ _ hst
  | and ps =>
    refine Outcome.Good.mono (runAnd_good (fun p => hf p _) ps (Nat.le_refl _) (Nat.le_max_left _ _) hnil hst)
      (fun stop d hd => ?_) fun _ htotal => ?_
    · have hof : (Pattern.and ps).flags F =
          .of (Pattern.flagsAnd F ps).nullable (Pattern.flagsAnd F ps).ends false := by cases ps <;> rfl
      rw [hof]
      exact .of hd.1 hd.2.1 hd.2.2.1 hd.2.2.2.1 hd.2.2.2.2
    · cases ps <;> cases htotal
  | or ps => exact runOr_good (fun p => hf p _ _) ps hst
  | star q =>
    refine loop_good (fun pos st => hf q _ pos st) (fun stop count body st hle hstop _ hend hbody hst => ?_) _
      (Nat.le_refl _) (Nat.le_max_left _ _) nofun hnil hst
    exact ⟨.of hle hstop nofun (fun hends hpos => hend hends (by omega)) fun hl => (hbody hl).genericRet _ _, hst⟩
  | plus q =>
    refine loop_good (fun pos st => hf q _ pos st) (fun stop count body st hle hstop hcount hend hbody hst => ?_) _
      (Nat.le_refl _) (Nat.le_max_left _ _) nofun hnil hst
    split
    next hone =>
      exact ⟨.of hle hstop (fun _ => hcount hone) (fun hends hpos => hend hends (by omega))
        fun hl => (hbody hl).genericRet _ _, hst⟩
    next => exact ⟨nofun, hst⟩
  | opt q =>
    refine turn_good (hf q _ pos st hst) (fun stop d st hlt hstop hfits hst => ?_) fun st _ hst => ⟨hhere _ hno, hst⟩
    refine ⟨.of (by omega) (by omega) nofun nofun fun hl => ?_, hst⟩
    exact ((hnil hl).pushNotNull (hfits hl).singleFilter).genericRet _ _
  | followedBy q =>
    exact turn_good (hf q _ pos st hst) (fun _ _ st _ _ _ hst => ⟨hhere _ hno, hst⟩) fun st _ hst => ⟨nofun, hst⟩
  | notFollowedBy q =>
    exact turn_good (hf q _ pos st hst) (fun _ _ st _ _ _ hst => ⟨nofun, hst⟩) fun st hend hst => ⟨hhere _ hend, hst⟩
  | expect q =>
    refine Outcome.Good.orElse (Outcome.Good.mono (hf q _ pos st hst) (fun stop d hd => ?_) id) fun _ _ => trivial
    exact ⟨hd.le, hd.stop_le, hd.lt, hd.last, hd.stall, hd.fits⟩

/-- What a parser gives is in the text, and so is what the tables keep. -/
theorem run_good (hF : F.Sound G) (fuel : Nat) :
    ∀ (input : Input N) (p : Pattern N) (accum : Accum) (pos : Nat) (st : State N U), st.Good F input →
      (run G c fuel input p accum pos st).GoodAt F input (p.flags F) pos := by
  induction fuel with
  | zero => exact fun _ _ _ _ _ _ => trivial
  | succ fuel ih =>
    exact fun input => step_good hF fun skip p accum pos st hst => ih { input with skip := skip } p accum pos st hst

end

/-! ## Strings that are put together -/

section
variable {text : List Char} {lo hi : Nat} {ds : List Datum}

theorem Fits.appendStrings {s : List Char} (h : Fits text lo hi ds) (hs : appendStrings ds = some s) :
    s.Sublist (between text lo hi) := by
  induction h generalizing s with
  | nil => cases hs; exact List.nil_sublist _
  | string hle hsub hds ih =>
    obtain ⟨t, ht, rfl⟩ := Option.map_eq_some_iff.mp hs
    rw [← between_append hle hds.le]
    exact hsub.append (ih ht)
  | _ => cases hs

theorem Fits.joinStrings (h : Fits text lo hi ds) : Fits text lo hi (ds.map joinStrings) := by
  induction h with
  | nil hle => exact .nil hle
  | symbol _ ih => exact .symbol ih
  | string hle hs _ ih => exact .string hle hs ih
  | node hle hcs _ _ ih => exact .node hle hcs ih
  | commented hle hc hcs _ _ _ ih => exact .commented hle hc hcs ih
  | @list lo mid hi cs ds hcs hds _ ih =>
    rw [List.map_cons]
    cases cs with
    | nil => exact .list hcs ih
    | cons c cs =>
      rw [Peg.joinStrings]
      cases hs : Peg.appendStrings (c :: cs) with
      | none => exact .list hcs ih
      | some s => exact .string hcs.le (hcs.appendStrings hs) ih

theorem Fits.stringGroup (h : Fits text lo hi ds) : Fits text lo hi (stringGroup ds) := by
  induction h with
  | nil hle => exact .nil hle
  | symbol _ ih => exact .symbol ih
  | list hcs _ _ ih => exact .list hcs ih
  | node hle hcs _ _ ih => exact .node hle hcs ih
  | commented hle hc hcs _ _ _ ih => exact .commented hle hc hcs ih
  | @string lo mid hi s ds hle hs hds ih =>
    rw [Peg.stringGroup]
    split
    next t us rest heq =>
      rw [heq] at ih
      cases ih with
      | list hcs hrest => exact .list (.string hle hs hcs) hrest
    next => exact .list (.string hle hs (.nil (Nat.le_refl _))) ih

/-- Strings are not put into a list that starts with a symbol. -/
theorem stringGroup_append (ds : List Datum) (s : List Char) (cs es : List Datum) :
    stringGroup (ds ++ .list (.symbol s :: cs) :: es) =
      stringGroup ds ++ .list (.symbol s :: cs) :: stringGroup es := by
  induction ds with
  | nil => rfl
  | cons d ds ih =>
    cases d with
    | string t =>
      rw [List.cons_append, stringGroup, stringGroup, ih]
      cases stringGroup ds with
      | nil => rfl
      | cons x xs => cases x with
        | list us => cases us with
          | nil => rfl
          | cons u us => cases u <;> rfl
        | _ => rfl
    | _ => simp only [List.cons_append, stringGroup, ih]

theorem stringCollapseAll_append (ds es : List Datum) :
    stringCollapseAll (ds ++ es) = stringCollapseAll ds ++ stringCollapseAll es := by
  induction ds with
  | nil => rfl
  | cons d ds ih => rw [List.cons_append, stringCollapseAll, stringCollapseAll, ih, List.cons_append]

theorem stringCollapse_location (a b : Nat) : stringCollapse (location a b) = location a b := rfl

/-- What becomes of the trees of a node. -/
def groupAll (ds : List Datum) : List Datum := (stringGroup (stringCollapseAll ds)).map joinStrings

theorem stringCollapse_node (name : List Char) (cs : List Datum) (a b : Nat) :
    stringCollapse (.list (.symbol name :: cs ++ [location a b])) =
      .list (.symbol name :: groupAll cs ++ [location a b]) := by
  have hgroup : groupAll (.symbol name :: cs ++ [location a b]) = .symbol name :: groupAll cs ++ [location a b] := by
    rw [groupAll, List.cons_append, stringCollapseAll, stringCollapseAll_append]
    change (Datum.symbol name :: stringGroup (stringCollapseAll cs ++ [location a b])).map joinStrings = _
    rw [location, symbolOf, stringGroup_append, List.map_cons, List.map_append]
    rfl
  rw [stringCollapse]
  change singleFilter (.list (groupAll _)) = _
  rw [hgroup]
  cases groupAll cs <;> rfl

theorem groupAll_commented (cs : List Datum) (c : Datum) (start a : Nat) :
    ∃ d, groupAll [c] = [d] ∧ groupAll (cs ++ [.list [symbolOf "comment", c, location start a]]) =
      groupAll cs ++ [.list [symbolOf "comment", d, location start a]] := by
  obtain ⟨d, hd⟩ : ∃ d, groupAll [c] = [d] := by
    rw [groupAll, stringCollapseAll, stringCollapseAll]
    cases stringCollapse c <;> exact ⟨_, rfl⟩
  have hcomment : stringCollapse (.list [symbolOf "comment", c, location start a]) =
      .list [symbolOf "comment", d, location start a] := by
    have := stringCollapse_node "comment".toList [c] start a
    rw [hd] at this
    exact this
  refine ⟨d, hd, ?_⟩
  rw [groupAll, stringCollapseAll_append, stringCollapseAll, hcomment, stringCollapseAll, symbolOf, stringGroup_append,
    List.map_append]
  rfl

theorem Fits.groupAll (h : Fits text lo hi ds) : Fits text lo hi (stringCollapseAll ds) := by
  induction h with
  | nil hle => exact .nil hle
  | symbol _ ih => exact .symbol ih
  | string hle hs _ ih => exact .string hle hs ih
  | list _ _ ihc ih =>
    exact Fits.append (Fits.singleFilter (.list ihc.stringGroup.joinStrings (.nil (Nat.le_refl _)))) ih
  | node hle _ _ ihc ih =>
    rw [stringCollapseAll, stringCollapse_node]
    exact .node hle ihc.stringGroup.joinStrings ih
  | @commented lo start a b hi name c cs ds hle _ _ _ ihc ihcs ih =>
    obtain ⟨d, hd, heq⟩ := groupAll_commented cs c start a
    have hnode := stringCollapse_node name (cs ++ [.list [symbolOf "comment", c, location start a]]) a b
    rw [heq] at hnode
    rw [stringCollapseAll]
    simp only [List.cons_append, List.append_assoc, List.nil_append] at hnode ⊢
    rw [hnode]
    have hc := ihc.stringGroup.joinStrings
    change Fits text start a (Peg.groupAll [c]) at hc
    rw [hd] at hc
    exact .commented hle hc ihcs.stringGroup.joinStrings ih

theorem Fits.stringCollapse {d : Datum} (h : Fits text lo hi [d]) : Fits text lo hi [stringCollapse d] := h.groupAll

end

end Dezyne.Peg
