-- The law of ambiguity: a stream that is read to its end has each derivation once,
-- as a success, and no success besides. The proof follows the script, and makes a
-- list of all derivations beside its outcomes.
import Backtrack.Proofs.Derivation
import Backtrack.Proofs.Stream.Runs
import Mathlib.SetTheory.Cardinal.Finite

namespace Backtrack

/-! ## Lists of all elements of a type -/

/-- The successes among the outcomes are given by the elements of the type, each of
which gives one. -/
def GivenBy {α : Type} (give : α → Outcome) (outcomes : List Outcome) : Prop :=
  ∃ as : List α, as.Nodup ∧ (∀ a, a ∈ as) ∧ outcomes.filter Outcome.isSuccess = as.map give

namespace GivenBy

variable {α β : Type} {give : α → Outcome} {give' : β → Outcome} {outcomes outcomes' : List Outcome}

theorem mem_successes (h : GivenBy give outcomes) (a : α) :
    give a ∈ outcomes.filter Outcome.isSuccess := by
  obtain ⟨as, _, hall, hmap⟩ := h
  rw [hmap]
  exact List.mem_map_of_mem (hall a)

theorem mem (h : GivenBy give outcomes) (a : α) : give a ∈ outcomes :=
  List.mem_of_mem_filter (h.mem_successes a)

theorem isSuccess (h : GivenBy give outcomes) (a : α) : (give a).isSuccess :=
  (List.mem_filter.mp (h.mem_successes a)).2

/-- Another type may give the same outcomes. -/
theorem of_bijective (h : GivenBy give outcomes) {e : β → α} (he : Function.Bijective e)
    (hgive : ∀ b, give (e b) = give' b) : GivenBy give' outcomes := by
  obtain ⟨as, hnodup, hall, hmap⟩ := h
  refine ⟨as.map (Equiv.ofBijective e he).symm, ?_, fun b => ?_, ?_⟩
  · exact hnodup.map (Equiv.injective _)
  · exact List.mem_map.mpr ⟨e b, hall _, (Equiv.ofBijective e he).symm_apply_apply b⟩
  · rw [hmap, List.map_map]
    refine List.map_congr_left fun a _ => ?_
    rw [Function.comp_apply, ← hgive]
    exact congrArg give ((Equiv.ofBijective e he).apply_symm_apply a).symm

theorem single {o : Outcome} (h : o.isSuccess) : GivenBy (fun _ : Unit => o) [o] :=
  ⟨[()], List.nodup_singleton _, fun _ => List.mem_singleton_self _, by simp [h]⟩

theorem append (h : GivenBy give outcomes) (h' : GivenBy give' outcomes') :
    GivenBy (Sum.elim give give') (outcomes ++ outcomes') := by
  obtain ⟨as, hnodup, hall, hmap⟩ := h
  obtain ⟨bs, hnodup', hall', hmap'⟩ := h'
  refine ⟨as.map .inl ++ bs.map .inr, ?_, ?_, ?_⟩
  · refine List.nodup_append.mpr ⟨hnodup.map Sum.inl_injective, hnodup'.map Sum.inr_injective, ?_⟩
    intro a ha b hb hab
    obtain ⟨_, _, rfl⟩ := List.mem_map.mp ha
    obtain ⟨_, _, rfl⟩ := List.mem_map.mp hb
    cases hab
  · rintro (a | b)
    · exact List.mem_append_left _ (List.mem_map_of_mem (hall a))
    · exact List.mem_append_right _ (List.mem_map_of_mem (hall' b))
  · simp [hmap, hmap', Function.comp_def]

/-- Failures that are replaced by failures add no success. -/
theorem successes_flatMap {f : Outcome → List Outcome} (outcomes : List Outcome)
    (hfailure : ∀ o, o.isSuccess = false → ∀ o' ∈ f o, o'.isSuccess = false) :
    (outcomes.flatMap f).filter Outcome.isSuccess =
      (outcomes.filter Outcome.isSuccess).flatMap fun o => (f o).filter Outcome.isSuccess := by
  induction outcomes with
  | nil => rfl
  | cons o rest ih =>
    rw [List.flatMap_cons, List.filter_append, ih]
    cases ho : o.isSuccess with
    | true => rw [List.filter_cons_of_pos ho, List.flatMap_cons]
    | false =>
      have hnone : (f o).filter Outcome.isSuccess = [] := by
        refine List.filter_eq_nil_iff.mpr fun o' ho' => ?_
        rw [hfailure o ho o' ho']
        exact Bool.false_ne_true
      have hskip : ¬ o.isSuccess = true := by
        rw [ho]
        exact Bool.false_ne_true
      rw [hnone, List.nil_append, List.filter_cons_of_neg hskip]

/-- Where every success is replaced by outcomes of its own, and failures by failures,
each success that comes of it is given once. -/
theorem flatMap {γ : α → Type} {give' : (a : α) → γ a → Outcome} {f : Outcome → List Outcome}
    (h : GivenBy give outcomes) (hf : ∀ a, GivenBy (give' a) (f (give a)))
    (hfailure : ∀ o, o.isSuccess = false → ∀ o' ∈ f o, o'.isSuccess = false) :
    GivenBy (fun x : Σ a, γ a => give' x.1 x.2) (outcomes.flatMap f) := by
  obtain ⟨as, hnodup, hall, hmap⟩ := h
  choose bs hnodup' hall' hmap' using hf
  refine ⟨as.sigma bs, hnodup.sigma hnodup', fun x => ?_, ?_⟩
  · exact List.mem_sigma.mpr ⟨hall x.1, hall' x.1 x.2⟩
  · rw [successes_flatMap outcomes hfailure, hmap, List.flatMap_map, List.sigma, List.map_flatMap]
    refine List.flatMap_congr fun a _ => ?_
    rw [hmap', List.map_map]
    rfl

/-- Where every success is replaced by another one. -/
theorem replace {give' : α → Outcome} {f : Outcome → List Outcome} (h : GivenBy give outcomes)
    (hf : ∀ a, f (give a) = [give' a]) (hsuccess : ∀ a, (give' a).isSuccess)
    (hfailure : ∀ o, o.isSuccess = false → ∀ o' ∈ f o, o'.isSuccess = false) :
    GivenBy give' (outcomes.flatMap f) := by
  have hone : ∀ a, GivenBy (fun _ : Unit => give' a) (f (give a)) := by
    intro a
    rw [hf a]
    exact single (hsuccess a)
  refine (h.flatMap hone hfailure).of_bijective (e := fun a => ⟨a, ()⟩) ⟨?_, ?_⟩ fun _ => rfl
  · intro a b hab
    cases hab
    rfl
  · rintro ⟨a, ⟨⟩⟩
    exact ⟨a, rfl⟩

end GivenBy

/-! ## Scripts and derivations -/

variable {rules : Rules} {text : Text} {p q : Parser} {i : Int}

namespace GivenBy

theorem change {α β : Type} {give : α → Outcome} {give' : β → Outcome} {s : Script}
    {f : Outcome → Action Outcome} (h : GivenBy give s.outcomes) (hs : (s.change f).Unbroken)
    {e : β → α} (he : Function.Bijective e) (hresult : ∀ b, (f (give (e b))).result = .ok (give' b))
    (hkind : ∀ o o', (f o).result = .ok o' → o'.isSuccess = o.isSuccess) :
    GivenBy give' (s.change f).outcomes := by
  rw [Script.change, Script.outcomes_expand hs]
  refine (h.of_bijective he fun _ => rfl).replace (fun b => ?_) (fun b => ?_) fun o ho o' ho' => ?_
  · rw [Script.outcomes_withEvents, hresult]
    rfl
  · rw [hkind _ _ (hresult b)]
    exact h.isSuccess (e b)
  · rw [Script.outcomes_withEvents, Script.mem_outcomes_ofResult] at ho'
    rw [hkind o o' ho', ho]

theorem expand {α : Type} {γ : α → Type} {give : α → Outcome} {give' : (a : α) → γ a → Outcome}
    {s : Script} {f : Outcome → Script} (h : GivenBy give s.outcomes) (hs : (s.expand f).Unbroken)
    (hf : ∀ a, GivenBy (give' a) (f (give a)).outcomes)
    (hfailure : ∀ o, o.isSuccess = false → ∀ o' ∈ (f o).outcomes, o'.isSuccess = false) :
    GivenBy (fun x : Σ a, γ a => give' x.1 x.2) (s.expand f).outcomes := by
  rw [Script.outcomes_expand hs]
  exact h.flatMap (f := fun o => (f o).outcomes) hf hfailure

theorem pairWith {s : Script} {second : Int → Script}
    (h : GivenBy (Parse.outcome : Parse rules text p i → _) s.outcomes)
    (hs : (s.pairWith second).Unbroken)
    (hsecond : ∀ j, (second j).Unbroken →
      GivenBy (Parse.outcome : Parse rules text q j → _) (second j).outcomes) :
    GivenBy (fun x : Σ t : Parse rules text p i, Parse rules text q t.stop =>
      .success x.2.stop (.pair x.1.value x.2.value)) (s.pairWith second).outcomes := by
  have hone : ∀ t : Parse rules text p i, GivenBy
      (fun r : Parse rules text q t.stop => .success r.stop (.pair t.value r.value))
      ((second t.stop).expand fun o => .single (o.pairedWith t.value)).outcomes := by
    intro t
    have ht := (Script.unbroken_expand.mp hs).2 _ (h.mem t)
    simp only [Parse.outcome] at ht
    have hj := hsecond t.stop (Script.unbroken_expand.mp ht).1
    rw [Script.outcomes_expand ht]
    refine hj.replace (fun r => rfl) (fun r => rfl) fun o ho o' ho' => ?_
    rw [Script.outcomes_single, List.mem_singleton] at ho'
    cases o with
    | success => cases ho
    | failure => exact ho' ▸ rfl
  refine h.expand hs hone fun o ho o' ho' => ?_
  cases o with
  | success => cases ho
  | failure =>
    rw [Script.outcomes_single, List.mem_singleton] at ho'
    exact ho' ▸ rfl

end GivenBy

/-! ## Parsers -/

namespace Parser

theorem givenBy_leaf {l : Leaf} (h : (Script.ofResult (l.attempt text i)).Unbroken) :
    GivenBy (Parse.outcome : Parse rules text (leaf l) i → _)
      (Script.ofResult (l.attempt text i)).outcomes := by
  have htakes : ∀ t : Parse rules text (leaf l) i, l.attempt text i = .ok t.outcome := by
    rintro ⟨j, v, d⟩
    cases d with
    | leaf h => exact Leaf.takes_iff.mp h
  cases ha : l.attempt text i with
  | error fault =>
    rw [ha] at h
    exact h.elim
  | ok o =>
    cases o with
    | failure index expect =>
      refine ⟨[], List.nodup_nil, fun t => ?_, rfl⟩
      cases ha.symm.trans (htakes t)
    | success index value =>
      refine ⟨[⟨index, value, .leaf (Leaf.takes_iff.mpr ha)⟩], List.nodup_singleton _, ?_, rfl⟩
      rintro ⟨j, v, d⟩
      cases d with
      | leaf h =>
        cases ha.symm.trans (Leaf.takes_iff.mp h)
        exact List.mem_singleton_self _

theorem givenBy_many {body : Int → Script} (hbody : ∀ i, (body i).Unbroken →
      GivenBy (Parse.outcome : Parse rules text p i → _) (body i).outcomes) {n : Nat} {i : Int}
    (h : (repeated body n i).Unbroken) :
    GivenBy (Parse.outcome : Parse rules text p.many i → _) (repeated body n i).outcomes := by
  induction n generalizing i with
  | zero => exact h.elim
  | succ n ih =>
    obtain ⟨hmore, _⟩ := Script.unbroken_append.mp h
    have hpairs := (Script.unbroken_expand.mp hmore).1
    have hone := (Script.unbroken_expand.mp hpairs).1
    have hitems := hbody i (Script.unbroken_expand.mp hone).1
    have hprogress : ∀ t : Parse rules text p i,
        (requireProgress t.outcome i).result = .ok t.outcome ∧ i < t.stop := by
      intro t
      obtain ⟨o, ho⟩ := Script.exists_result_of_unbroken_change hone (hitems.mem t)
      obtain ⟨rfl, hlt⟩ := result_requireProgress ho
      exact ⟨ho, hlt _ _ rfl⟩
    have hchain : ∀ x : Σ t : Parse rules text p i, Parse rules text p.many t.stop,
        (onValue consValues (.success x.2.stop (.pair x.1.value x.2.value)) i).result =
          .ok (.success x.2.stop (.list (x.1.value :: x.2.value.elements?.getD []))) := by
      rintro ⟨t, ⟨k, w, d⟩⟩
      cases d <;> rfl
    have hpassed := hitems.change hone Function.bijective_id (fun t => (hprogress t).1)
      fun o o' ho => (result_requireProgress ho).1 ▸ rfl
    have hchains := (hpassed.pairWith hpairs fun j hj => ih hj).change hmore Function.bijective_id
      hchain fun o o' ho => isSuccess_onValue ho
    rw [repeated, Script.outcomes_append hmore]
    refine (hchains.append (GivenBy.single rfl)).of_bijective
      (Parse.items_bijective fun t => (hprogress t).2) ?_
    rintro ⟨j, v, d⟩
    cases d <;> rfl

/-- One level of recursion. -/
theorem givenBy_scriptWith {n : Nat} {recursive : Handle → Int → Script}
    (hr : ∀ handle i, (recursive handle i).Unbroken →
      GivenBy (Parse.outcome : Parse rules text (ref handle) i → _) (recursive handle i).outcomes)
    (hp : p.Plain) {i : Int} (h : (p.scriptWith text n recursive i).Unbroken) :
    GivenBy (Parse.outcome : Parse rules text p i → _)
      (p.scriptWith text n recursive i).outcomes := by
  induction p generalizing i with
  | leaf l => exact givenBy_leaf h
  | custom step => exact hp.elim
  | pair p q ihp ihq =>
    have hfirst := ihp hp.2.1 (Script.unbroken_expand.mp h).1
    have hpairs := hfirst.pairWith h fun j hj => ihq hp.2.2 hj
    refine hpairs.of_bijective Parse.parts_bijective ?_
    rintro ⟨j, v, d⟩
    cases d
    rfl
  | or p q ihp ihq =>
    obtain ⟨hleft, hright⟩ := Script.unbroken_append.mp h
    rw [scriptWith, Script.outcomes_append hleft]
    have hsides := (ihp hp.2.1 hleft).append (ihq hp.2.2 hright)
    refine hsides.of_bijective Parse.side_bijective ?_
    rintro ⟨j, v, d⟩
    cases d <;> rfl
  | mapOutcome change p ih =>
    have hbody := ih hp.2 (Script.unbroken_expand.mp h).1
    have hresult : ∀ t : Parse rules text p i, ∃ o, (change t.outcome i).result = .ok o :=
      fun t => Script.exists_result_of_unbroken_change h (hbody.mem t)
    exact hbody.change h (Parse.unchanged_bijective hp hresult) Parse.change_unchanged
      fun o o' ho => hp.isSuccess ho
  | not p ih => exact hp.1.elim
  | many p ih => exact givenBy_many (fun i hi => ih hp.2 hi) h
  | ref handle => exact hr handle i h

/-- The successes of a script without a fault are given by the derivations. -/
theorem givenBy_script (hrules : rules.All Plain) {n : Nat} (hp : p.Plain) {i : Int}
    (h : (p.script rules text n i).Unbroken) :
    GivenBy (Parse.outcome : Parse rules text p i → _) (p.script rules text n i).outcomes := by
  induction n generalizing p i with
  | zero =>
    refine givenBy_scriptWith (fun handle i hi => ?_) hp h
    exact False.elim hi
  | succ n ih =>
    refine givenBy_scriptWith (fun handle i hi => ?_) hp h
    cases hb : rules.body? handle with
    | none =>
      rw [hb] at hi
      exact hi.elim
    | some body =>
      rw [hb] at hi
      exact (ih (hrules handle body hb) hi).of_bijective (Parse.unfolded_bijective hb)
        (Parse.outcome_unfolded hb)

end Parser

/-! ## Counting -/

open Classical in
/-- Among the outcomes of all derivations from a start, a success is there once for
each of its derivations. -/
theorem Parse.count_outcome {ts : List (Parse rules text p i)} (hnodup : ts.Nodup)
    (hall : ∀ t, t ∈ ts) (j : Int) (v : Value) :
    Finite (Derivation rules text p i j v) ∧
      (ts.map Parse.outcome).count (.success j v) = Nat.card (Derivation rules text p i j v) := by
  have hmem : ∀ t, t ∈ ts.filter (·.outcome = .success j v) ↔ t.outcome = .success j v := by
    intro t
    simp only [List.mem_filter, hall t, true_and, decide_eq_true_eq]
  have hcount : (ts.map Parse.outcome).count (.success j v) =
      (ts.filter (·.outcome = .success j v)).length := by
    rw [List.count_eq_countP, List.countP_map, List.countP_eq_length_filter]
    rfl
  have hnodup := hnodup.filter (·.outcome = .success j v)
  generalize ts.filter (·.outcome = .success j v) = ds at hmem hcount hnodup
  have hbijective : Function.Bijective fun d : Derivation rules text p i j v =>
      (⟨⟨j, v, d⟩, (hmem _).mpr rfl⟩ : {t // t ∈ ds}) := by
    constructor
    · intro d d' h
      cases h
      rfl
    · rintro ⟨⟨k, w, d⟩, ht⟩
      cases (hmem _).mp ht
      exact ⟨d, rfl⟩
  have := ds.finite_toSet.to_subtype
  refine ⟨Finite.of_injective _ hbijective.1, ?_⟩
  rw [hcount, Nat.card_eq_of_bijective _ hbijective, ← List.toFinset_card_of_nodup hnodup]
  exact (Nat.subtype_card ds.toFinset fun _ => List.mem_toFinset).symm

open Classical in
theorem GivenBy.count_eq_card {outcomes : List Outcome}
    (h : GivenBy (Parse.outcome : Parse rules text p i → _) outcomes) (j : Int) (v : Value) :
    Finite (Derivation rules text p i j v) ∧
      outcomes.count (.success j v) = Nat.card (Derivation rules text p i j v) := by
  obtain ⟨ts, hnodup, hall, hmap⟩ := h
  have hsuccess : (outcomes.filter Outcome.isSuccess).count (.success j v) =
      outcomes.count (.success j v) := List.count_filter rfl
  rw [← hsuccess, hmap]
  exact Parse.count_outcome hnodup hall j v

/-! ## The law of ambiguity -/

open Classical in
/-- Where a parser is drained without a fault, each success is met exactly as often as
it has derivations, which are finitely many: every derivation is found, none is found
twice, and nothing is found that has no derivation. -/
theorem draining_finds_each_derivation_once {outcomes : List Outcome}
    (hrules : rules.All Parser.Plain) (hp : p.Plain) (h : p.Drains rules text i outcomes) (j : Int)
    (v : Value) :
    Finite (Derivation rules text p i j v) ∧
      outcomes.count (.success j v) = Nat.card (Derivation rules text p i j v) ∧
      (.success j v ∈ outcomes ↔ Nonempty (Derivation rules text p i j v)) := by
  obtain ⟨n, hn, rfl⟩ := h.script
  obtain ⟨hfinite, hcount⟩ := (Parser.givenBy_script hrules hp hn).count_eq_card j v
  refine ⟨hfinite, hcount, ?_⟩
  rw [← List.count_pos_iff, hcount, Nat.card_pos_iff]
  exact ⟨fun h => h.1, fun h => ⟨h, hfinite⟩⟩

/-- Any number of letters, each of which there are two ways to take. -/
def twoWays : Rules :=
  ⟨#[some ((((Parser.string "a").or (.string "a")).cons (.ref 0)).or (.succeed (.list [])))]⟩

theorem twoWays_all_plain : twoWays.All Parser.Plain := by
  intro handle body hb
  match handle with
  | 0 =>
    cases hb
    exact ⟨trivial, ⟨Or.inl ⟨_, rfl⟩, trivial, ⟨trivial, trivial, trivial⟩, trivial⟩, trivial⟩
  | n + 1 => simp [Rules.body?, twoWays] at hb

open Classical in
theorem two_letters_have_four_derivations :
    twoWays.All Parser.Plain ∧ (Parser.ref 0).Plain ∧
      (Parser.ref 0).Drains twoWays ['a', 'a'] 0
        ((Parser.ref 0).script twoWays ['a', 'a'] 5 0).outcomes ∧
      Nat.card (Derivation twoWays ['a', 'a'] (.ref 0) 0 2 (.list [.str "a", .str "a"])) = 4 := by
  have hunbroken : ((Parser.ref 0).script twoWays ['a', 'a'] 5 0).Unbroken := by decide +kernel
  have hdrains := Parser.drains_of_unbroken hunbroken
  have hsuccesses : ((Parser.ref 0).script twoWays ['a', 'a'] 5 0).outcomes.filter
      Outcome.isSuccess = [
        .success 2 (.list [.str "a", .str "a"]), .success 2 (.list [.str "a", .str "a"]),
        .success 1 (.list [.str "a"]),
        .success 2 (.list [.str "a", .str "a"]), .success 2 (.list [.str "a", .str "a"]),
        .success 1 (.list [.str "a"]),
        .success 0 (.list [])] := rfl
  have hplain : (Parser.ref 0).Plain := trivial
  refine ⟨twoWays_all_plain, hplain, hdrains, ?_⟩
  obtain ⟨_, hcount, _⟩ := draining_finds_each_derivation_once twoWays_all_plain hplain hdrains 2
    (.list [.str "a", .str "a"])
  rw [← hcount, ← List.count_filter (p := Outcome.isSuccess) rfl, hsuccesses]
  simp

end Backtrack
