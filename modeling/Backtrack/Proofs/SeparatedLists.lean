-- The law of separated lists: they are the chains in which items and separators take turns
-- and an item stands last. Carried by a plan with two kinds of places, of which only those
-- behind an item give anything, and by the script of repeated pairs of a separator and an
-- item, which is a traversal of twice the depth.
import Backtrack.Proofs.Guard
import Backtrack.Proofs.Sequence
import Mathlib.Algebra.Ring.Parity

namespace Backtrack

/-! ## Chains in turn -/

namespace Chain

mutual

/-- The values of the items of a chain that begins with one. -/
def itemValues : Chain → List Value
  | [] => []
  | c :: rest => c.value :: valuesBehind rest

/-- The values of the items of a chain that begins with a separator. -/
def valuesBehind : Chain → List Value
  | [] => []
  | _ :: rest => itemValues rest

end

end Chain

namespace Parser

/-- The first candidate of the chain is offered by the first parser at the offset, and each
other one at the end of the one before it, by the second parser and the first in turn. -/
def Alternated (rules : Rules) (text : Text) : Parser → Parser → Int → Chain → Prop
  | _, _, _, [] => True
  | p, q, i, c :: rest => p.Offers rules text i c ∧ Alternated rules text q p c.stop rest

/-- No run of the parser meets a fault, wherever it starts. -/
def Faultless (rules : Rules) (text : Text) (p : Parser) : Prop :=
  ∀ i limit shown fault, p.Shows rules text i limit shown → shown.stop ≠ .faulted fault

end Parser

/-! ## The traversal of separated lists -/

namespace Separation

/-- A place in a separated list, with the values of the items before it: an item, which
perhaps stands behind a separator with a start of its own, or a separator. -/
inductive Place where
  | item (origin : Option Int) (start : Int) (taken : List Value)
  | separator (start : Int) (taken : List Value)

/-- Separated lists depth first: behind an item comes a separator and behind a separator an
item, which has to get past the start of the separator. What was taken is given at the end
of each stream of separators. -/
def plan (p separator : Parser) : Plan Place where
  parser
    | .item .. => p
    | .separator .. => separator
  start
    | .item _ start _ => start
    | .separator start _ => start
  behind
    | .item _ _ taken, j, v => .separator j (taken ++ [v])
    | .separator start taken, j, _ => .item (some start) j taken
  floor
    | .item origin _ _ => origin
    | .separator .. => none
  closing
    | .item .. => none
    | .separator start taken => some (.success start (.list taken))

variable {p separator : Parser}

theorem isSuccess_of_closing (place : Place) (o : Outcome)
    (h : (plan p separator).closing place = some o) : o.isSuccess := by
  cases place with
  | item origin start taken => cases h
  | separator start taken =>
    cases h
    rfl

/-- Only behind an item something is given: all values of items so far. -/
theorem givenBehind_eq (a : Chain) :
    (∀ origin k taken, (plan p separator).givenBehind (.item origin k taken) a =
      if Odd a.length then some (.success (Chain.stop k a) (.list (taken ++ a.itemValues))) else none) ∧
    ∀ k taken, (plan p separator).givenBehind (.separator k taken) a =
      if Even a.length then some (.success (Chain.stop k a) (.list (taken ++ a.valuesBehind)))
      else none := by
  induction a with
  | nil =>
    refine ⟨fun origin k taken => rfl, fun k taken => ?_⟩
    rw [Chain.valuesBehind, List.append_nil]
    rfl
  | cons c a ih =>
    obtain ⟨hitem, hseparator⟩ := ih
    constructor
    · intro origin k taken
      have hnext : (plan p separator).givenBehind (.item origin k taken) (c :: a) =
          (plan p separator).givenBehind (.separator c.stop (taken ++ [c.value])) a := rfl
      rw [hnext, hseparator, Chain.itemValues, Chain.stop, List.append_assoc, List.length_cons]
      simp only [Nat.odd_add_one, Nat.not_odd_iff_even]
      rfl
    · intro k taken
      have hnext : (plan p separator).givenBehind (.separator k taken) (c :: a) =
          (plan p separator).givenBehind (.item (some k) c.stop taken) a := rfl
      rw [hnext, hitem, Chain.valuesBehind, Chain.stop, List.length_cons]
      simp only [Nat.even_add_one, Nat.not_even_iff_odd]

theorem offers_iff_alternated {rules : Rules} {text : Text} (a : Chain) :
    (∀ origin k taken, (plan p separator).Offers rules text (.item origin k taken) a ↔
      Parser.Alternated rules text p separator k a) ∧
    ∀ k taken, (plan p separator).Offers rules text (.separator k taken) a ↔
      Parser.Alternated rules text separator p k a := by
  induction a with
  | nil => exact ⟨fun _ _ _ => Iff.rfl, fun _ _ => Iff.rfl⟩
  | cons c a ih =>
    obtain ⟨hitem, hseparator⟩ := ih
    exact ⟨fun origin k taken => and_congr_right fun _ => hseparator c.stop (taken ++ [c.value]),
      fun k taken => and_congr_right fun _ => hitem (some k) c.stop taken⟩

/-- What is refused is an item that ends at or before the start of the separator before
it. -/
theorem refuses_iff {levels : List (Level Place)} {k : Int} :
    (plan p separator).Refuses levels k ↔ ∃ start taken j v rest outer,
      levels = ⟨.item (some k) start taken, .outcome (.success j v) rest⟩ :: outer ∧ j ≤ k := by
  constructor
  · rintro ⟨place, j, v, rest, outer, rfl, hk, hj⟩
    cases place with
    | item origin start taken =>
      cases hk
      exact ⟨start, taken, j, v, rest, outer, rfl, hj⟩
    | separator start taken => cases hk
  · rintro ⟨start, taken, j, v, rest, outer, rfl, hj⟩
    exact ⟨_, j, v, rest, outer, rfl, rfl, hj⟩

end Separation

namespace Parser

variable {rules : Rules} {text : Text} {p separator : Parser} {i k : Int} {n m limit : Nat}
  {shown : Shown} {events : List Event} {outcomes : List Outcome} {fault : Fault}

/-! ## Scripts -/

/-- Repeated pairs of a separator and an item are a traversal of twice the depth. -/
theorem tour_separator (taken : List Value) :
    (Separation.plan p separator).tour ((Separation.plan p separator).stream rules text n) (2 * m)
        (.separator k taken) =
      (repeated ((separator.keepSecond p).script rules text n) m k).expand fun o =>
        .single (o.behind taken) := by
  induction m generalizing k taken with
  | zero => rfl
  | succ m ih =>
    have hitem : ∀ j, (Separation.plan p separator).tour
        ((Separation.plan p separator).stream rules text n) (2 * m + 1) (.item (some k) j taken) =
        (p.script rules text n j).expand fun o =>
          (guarded k (repeated ((separator.keepSecond p).script rules text n) m) o).expand fun o =>
            .single (o.behind taken) := by
      intro j
      refine (Script.append_done _).trans (Script.expand_congr fun o _ => ?_)
      rw [expand_guarded_behind]
      cases o with
      | failure index expect => rfl
      | success e w =>
        have hfurther := ih (k := e) (taken ++ [w])
        simp only [← hfurther]
        rfl
    rw [repeated_succ_eq_guarded, Script.append_expand, script_keepSecond, Script.expand_expand,
      Script.expand_expand]
    refine congr (congrArg Script.append (Script.expand_congr fun o _ => ?_)) ?_
    · cases o with
      | failure index expect => rfl
      | success j v => exact hitem j
    · exact congrArg (fun values => Script.single (.success k (.list values)))
        (List.append_nil taken).symm

theorem script_sepBy1 : (p.sepBy1 separator).script rules text n i =
    (Separation.plan p separator).tour ((Separation.plan p separator).stream rules text n)
      (2 * n + 1) (.item none i []) := by
  rw [sepBy1, script_cons_many]
  refine Eq.trans (Script.expand_congr fun o _ => ?_) (Script.append_done _).symm
  cases o with
  | failure index expect => rfl
  | success j v =>
    have hfurther : ((repeated ((separator.keepSecond p).script rules text n) n j).expand fun o =>
        .single (o.behind [v])) = (Separation.plan p separator).tour
          ((Separation.plan p separator).stream rules text n) (2 * n) (.separator j [v]) :=
      (tour_separator [v]).symm
    refine Eq.trans (Script.expand_congr fun o _ => ?_) hfurther
    cases o <;> rfl

theorem script_sepBy : (p.sepBy separator).script rules text n i =
    ((p.sepBy1 separator).script rules text n i).append (.single (.success i (.list []))) := by
  rw [sepBy, script_or, succeed, script_leaf]
  rfl

/-! ## Runs -/

theorem shows_sepBy1_iff : (p.sepBy1 separator).Shows rules text i limit shown ↔
    (Separation.plan p separator).Shows rules text (.item none i []) limit shown :=
  shows_iff_plan (fun n => 2 * n + 1) trivial (fun n => by omega) fun _ => script_sepBy1

/-- Where separated lists come to an end, so do they with none of them behind. -/
theorem exhausts_sepBy_iff : (p.sepBy separator).Exhausts rules text i events outcomes ↔
    ∃ first, (p.sepBy1 separator).Exhausts rules text i events first ∧
      outcomes = first ++ [.success i (.list [])] := by
  simp only [exhausts_iff_holds, script_sepBy, Script.holds_append_single]
  constructor
  · rintro ⟨n, first, h, houtcomes⟩
    exact ⟨first, ⟨n, h⟩, houtcomes⟩
  · rintro ⟨first, ⟨n, h⟩, houtcomes⟩
    exact ⟨n, first, h, houtcomes⟩

/-- No fault comes from the list without items. -/
theorem shows_sepBy_faulted_iff :
    (p.sepBy separator).Shows rules text i limit ⟨events, outcomes, .faulted fault⟩ ↔
      (p.sepBy1 separator).Shows rules text i limit ⟨events, outcomes, .faulted fault⟩ := by
  have hall : (p.sepBy separator).Waits := trivial
  have hsome : (p.sepBy1 separator).Waits := trivial
  rw [shows_iff_take_script_of_waits hall, shows_iff_take_script_of_waits hsome]
  refine exists_congr fun n => ?_
  rw [script_sepBy, Script.take_eq_faulted_iff, Script.take_eq_faulted_iff]
  constructor
  · rintro ⟨hends, hshown⟩
    have hends := (Script.endsIn_append hends).resolve_right (Script.not_endsIn_single _)
    rw [Script.append_of_not_unbroken hends.not_unbroken] at hshown
    exact ⟨hends, hshown⟩
  · rintro ⟨hends, hshown⟩
    rw [Script.append_of_not_unbroken hends.not_unbroken]
    exact ⟨hends, hshown⟩

/-! ## Parsers without faults -/

theorem Faultless.not_endsIn (h : p.Faultless rules text) :
    ¬ (p.script rules text n i).EndsIn fault := by
  intro hends
  obtain ⟨limit, events, outcomes, hshows⟩ := meets_iff_endsIn.mpr ⟨n, hends⟩
  exact h i _ _ fault hshows rfl

/-- A leaf whose attempts are no faults meets none. -/
theorem faultless_leaf {l : Leaf} (h : ∀ i, ∃ o, l.attempt text i = .ok o) :
    (leaf l).Faultless rules text := by
  intro i limit shown fault hshows hstop
  obtain ⟨n, hends⟩ := hshows.endsIn_script hstop
  rw [script_leaf, Script.endsIn_ofResult] at hends
  obtain ⟨o, ho⟩ := h i
  cases ho.symm.trans hends

/-- A leaf yields nothing but what its attempt comes to. -/
theorem attempt_of_yields_leaf {l : Leaf} {o : Outcome} (h : (leaf l).Yields rules text i o) :
    l.attempt text i = .ok o := by
  obtain ⟨n, hmem⟩ := h.mem_script
  rw [script_leaf] at hmem
  cases hattempt : l.attempt text i with
  | error fault =>
    rw [hattempt] at hmem
    cases hmem
  | ok o' =>
    rw [hattempt] at hmem
    exact congrArg Except.ok (List.mem_singleton.mp hmem).symm

/-- If neither items nor separators meet a fault, none is met but that of an item which
does not get past the start of the separator before it. -/
theorem shows_sepBy1_faulted_iff (hp : p.Faultless rules text)
    (hseparator : separator.Faultless rules text) :
    (p.sepBy1 separator).Shows rules text i limit ⟨events, outcomes, .faulted fault⟩ ↔
      ∃ steps k start taken j v rest outer,
        (Separation.plan p separator).Comes rules text (.item none i []) steps
          (⟨.item (some k) start taken, .outcome (.success j v) rest⟩ :: outer) ∧ j ≤ k ∧
        fault = .emptyRepetition k ∧ outcomes = Step.outcomes steps ∧ outcomes.length < limit ∧
        events = Step.events steps ++ [.logged (.emptyRepetition k)] := by
  rw [shows_sepBy1_iff, Plan.shows_faulted_iff]
  constructor
  · rintro ⟨steps, levels, hcomes, houtcomes, hlength, ⟨hfault, _⟩ | ⟨k, hrefuses, hfault, hevents⟩⟩
    · obtain ⟨place, limit', shown, hshows, hstop⟩ := hcomes.shows_faulted hfault
      cases place with
      | item origin start taken => exact absurd hstop (hp _ _ _ fault hshows)
      | separator start taken => exact absurd hstop (hseparator _ _ _ fault hshows)
    · obtain ⟨start, taken, j, v, rest, outer, rfl, hj⟩ := Separation.refuses_iff.mp hrefuses
      exact ⟨steps, k, start, taken, j, v, rest, outer, hcomes, hj, hfault, houtcomes, hlength,
        hevents⟩
  · rintro ⟨steps, k, start, taken, j, v, rest, outer, hcomes, hj, hfault, houtcomes, hlength, hevents⟩
    have hrefuses : (Separation.plan p separator).Refuses
        (⟨.item (some k) start taken, .outcome (.success j v) rest⟩ :: outer) k :=
      Separation.refuses_iff.mpr ⟨start, taken, j, v, rest, outer, rfl, hj⟩
    exact ⟨steps, _, hcomes, houtcomes, hlength, Or.inr ⟨k, hrefuses, hfault, hevents⟩⟩

/-- A fault of repetitions is one of the item, or that of an item that takes nothing. -/
theorem endsIn_repeated {body : Int → Script} (h : (repeated body n i).EndsIn fault) :
    (∃ k, (body k).EndsIn fault) ∨ ∃ k j v, .success j v ∈ (body k).outcomes ∧ j ≤ k := by
  induction n generalizing i with
  | zero => exact h.elim
  | succ n ih =>
    rw [repeated_succ_eq_guarded] at h
    have hmore := (Script.endsIn_append h).resolve_right (Script.not_endsIn_single _)
    rcases Script.endsIn_expand hmore with h | ⟨o, ho, h⟩
    · exact Or.inl ⟨i, h⟩
    · cases o with
      | failure index expect => exact (Script.not_endsIn_single _ h).elim
      | success j v =>
        by_cases hj : j ≤ i
        · exact Or.inr ⟨i, j, v, ho, hj⟩
        · rw [guarded, if_neg hj] at h
          rcases Script.endsIn_expand h with h | ⟨_, _, h⟩
          · exact ih h
          · exact (Script.not_endsIn_single _ h).elim

/-- Items may take nothing where separators move on and items do not go back. -/
theorem faultless_sepBy1 (hp : p.Faultless rules text) (hseparator : separator.Faultless rules text)
    (hmoves : ∀ k j v, separator.Yields rules text k (.success j v) → k < j)
    (hkeeps : ∀ k j v, p.Yields rules text k (.success j v) → k ≤ j) :
    (p.sepBy1 separator).Faultless rules text := by
  intro i limit shown fault hshows hstop
  obtain ⟨n, hends⟩ := hshows.endsIn_script hstop
  rw [sepBy1, script_cons_many] at hends
  rcases Script.endsIn_expand hends with h | ⟨o, _, h⟩
  · exact hp.not_endsIn h
  · cases o with
    | failure index expect => exact Script.not_endsIn_single _ h
    | success k v =>
      rcases Script.endsIn_expand h with h | ⟨_, _, h⟩
      · rcases endsIn_repeated h with ⟨k, h⟩ | ⟨k, j, v, hv, hj⟩
        · rw [script_keepSecond] at h
          rcases Script.endsIn_expand h with h | ⟨o, _, h⟩
          · exact hseparator.not_endsIn h
          · cases o with
            | failure index expect => exact Script.not_endsIn_single _ h
            | success j w => exact hp.not_endsIn h
        · rw [script_keepSecond] at hv
          obtain ⟨o, ho, hv⟩ := Script.mem_outcomes_expand hv
          cases o with
          | failure index expect => cases List.mem_singleton.mp hv
          | success start w =>
            have hlt := hmoves k start w (yields_of_mem_script ho)
            have hle := hkeeps start j v (yields_of_mem_script hv)
            omega
      · exact Script.not_endsIn_single _ h

/-! ## The law of separated lists -/

/-- Read to their end without a fault, separated lists are the chains in which items and
separators take turns, the first and the last of which are items: each chain gives one
success, which ends where its last item ends and has the values of the items, and they
stand in the order of the chains. Lists that may be empty are these and then the empty one,
and meet the same faults. What is shown before the end, or before a fault, is shown by the
traversal of the two parsers in turn. If they meet no faults of their own, a fault is met
exactly where the traversal comes to an item which ends at or before the start of the
separator before it, and carries that start; and so none is met where separators move on
and items do not go back, even if items take nothing. -/
theorem separated_lists_are_the_chains_in_turn (rules : Rules) (text : Text) (p separator : Parser)
    (i : Int) :
    (∀ events outcomes, (p.sepBy1 separator).Exhausts rules text i events outcomes →
      ∃ sequences : List Chain,
        (∀ a, a ∈ sequences ↔ Alternated rules text p separator i a ∧ Odd a.length) ∧
        sequences.Nodup ∧
        (∀ x y (hx : x < sequences.length) (hy : y < sequences.length),
          x < y ↔ Chain.Precedes sequences[x] sequences[y]) ∧
        Outcome.successes outcomes =
          sequences.map fun a => .success (Chain.stop i a) (.list a.itemValues)) ∧
    (∀ events outcomes, (p.sepBy separator).Exhausts rules text i events outcomes ↔
      ∃ first, (p.sepBy1 separator).Exhausts rules text i events first ∧
        outcomes = first ++ [.success i (.list [])]) ∧
    (∀ limit events outcomes fault,
      (p.sepBy separator).Shows rules text i limit ⟨events, outcomes, .faulted fault⟩ ↔
        (p.sepBy1 separator).Shows rules text i limit ⟨events, outcomes, .faulted fault⟩) ∧
    (∀ limit shown, (p.sepBy1 separator).Shows rules text i limit shown ↔
      (Separation.plan p separator).Shows rules text (.item none i []) limit shown) ∧
    (p.Faultless rules text → separator.Faultless rules text →
      (∀ limit events outcomes fault,
        (p.sepBy1 separator).Shows rules text i limit ⟨events, outcomes, .faulted fault⟩ ↔
          ∃ steps k start taken j v rest outer,
            (Separation.plan p separator).Comes rules text (.item none i []) steps
              (⟨.item (some k) start taken, .outcome (.success j v) rest⟩ :: outer) ∧ j ≤ k ∧
            fault = .emptyRepetition k ∧ outcomes = Step.outcomes steps ∧
            outcomes.length < limit ∧
            events = Step.events steps ++ [.logged (.emptyRepetition k)]) ∧
      ((∀ k j v, separator.Yields rules text k (.success j v) → k < j) →
        (∀ k j v, p.Yields rules text k (.success j v) → k ≤ j) →
        (p.sepBy1 separator).Faultless rules text)) := by
  refine ⟨fun events outcomes h => ?_, fun _ _ => exhausts_sepBy_iff,
    fun _ _ _ _ => shows_sepBy_faulted_iff, fun _ _ => shows_sepBy1_iff, fun hp hseparator =>
      ⟨fun _ _ _ _ => shows_sepBy1_faulted_iff hp hseparator, faultless_sepBy1 hp hseparator⟩⟩
  obtain ⟨sequences, hmem, hordered, hsuccesses⟩ := Plan.exists_routes_of_exhausts
    (fun n => 2 * n + 1) (fun _ => script_sepBy1) Separation.isSuccess_of_closing h
  have hgiven : ∀ a : Chain, (Separation.plan p separator).givenBehind (.item none i []) a =
      if Odd a.length then some (.success (Chain.stop i a) (.list a.itemValues)) else none :=
    fun a => (Separation.givenBehind_eq a).1 none i []
  have hsequences : ∀ a, a ∈ sequences ↔ Alternated rules text p separator i a ∧ Odd a.length := by
    intro a
    rw [hmem, hgiven, (Separation.offers_iff_alternated a).1]
    by_cases hodd : Odd a.length <;> simp [hodd]
  refine ⟨sequences, hsequences, Chain.nodup_of_pairwise hordered, Chain.lt_iff_precedes hordered, ?_⟩
  rw [hsuccesses, ← List.filterMap_eq_map]
  refine List.filterMap_congr fun a ha => ?_
  rw [hgiven, if_pos ((hsequences a).mp ha).2]
  rfl

/-- Items that take nothing stand on both sides of a comma, or before it alone, and meet no
fault. With separators that take nothing as well, the traversal comes to an item behind a
separator from the same offset and is refused there. -/
theorem lists_of_nothing_take_turns :
    (∃ sequences : List Chain, sequences.length = 2 ∧
      ∀ a, a ∈ sequences ↔
        Alternated .empty [','] (succeed .none) (string ",") 0 a ∧ Odd a.length) ∧
    ((succeed .none).sepBy (string ",")).Exhausts .empty [','] 0 []
      [.failure 1 "string ,", .success 1 (.list [.none, .none]), .success 0 (.list [.none]),
        .success 0 (.list [])] ∧
    ((succeed .none).sepBy1 (string ",")).Faultless .empty [','] ∧
    ∃ steps start taken j v rest outer,
      (Separation.plan (succeed .none) (succeed .none)).Comes .empty [] (.item none 0 []) steps
        (⟨.item (some 0) start taken, .outcome (.success j v) rest⟩ :: outer) ∧ j ≤ 0 := by
  have hempty : ∀ text, (succeed .none).Faultless .empty text := fun text =>
    faultless_leaf fun i => ⟨.success i .none, rfl⟩
  have hcomma : (string ",").Faultless .empty [','] := faultless_leaf fun i => by
    rw [Leaf.attempt]
    split
    · exact ⟨_, rfl⟩
    · exact ⟨_, rfl⟩
  have hmoves : ∀ k j v, (string ",").Yields .empty [','] k (.success j v) → k < j := by
    intro k j v h
    have hattempt := attempt_of_yields_leaf h
    rw [Leaf.attempt] at hattempt
    split at hattempt
    · cases hattempt
      exact Int.lt_succ k
    · cases hattempt
  have hkeeps : ∀ k j v, (succeed .none).Yields .empty [','] k (.success j v) → k ≤ j := by
    intro k j v h
    cases attempt_of_yields_leaf h
    exact Int.le_refl k
  have hlists : ((succeed .none).sepBy1 (string ",")).Exhausts .empty [','] 0 []
      [.failure 1 "string ,", .success 1 (.list [.none, .none]), .success 0 (.list [.none])] :=
    exhausts_iff_holds.mpr ⟨2, trivial, rfl, rfl⟩
  have hrefused : ((succeed .none).sepBy1 (succeed .none)).Shows .empty [] 0 1
      ⟨[.logged (.emptyRepetition 0)], [], .faulted (.emptyRepetition 0)⟩ :=
    shows_of_take_script (n := 1) rfl
  obtain ⟨hchains, hmaybe, _, _, hguard⟩ :=
    separated_lists_are_the_chains_in_turn .empty [','] (succeed .none) (string ",") 0
  obtain ⟨_, _, _, _, hfaults⟩ :=
    separated_lists_are_the_chains_in_turn .empty [] (succeed .none) (succeed .none) 0
  obtain ⟨sequences, hsequences, _, _, hsuccesses⟩ := hchains _ _ hlists
  obtain ⟨steps, k, start, taken, j, v, rest, outer, hcomes, hj, hfault, _⟩ :=
    ((hfaults (hempty []) (hempty [])).1 _ _ _ _).mp hrefused
  cases hfault
  refine ⟨⟨sequences, ?_, hsequences⟩, (hmaybe _ _).mpr ⟨_, hlists, rfl⟩,
    (hguard (hempty [',']) hcomma).2 hmoves hkeeps,
    steps, start, taken, j, v, rest, outer, hcomes, hj⟩
  exact (List.length_map _).symm.trans (congrArg List.length hsuccesses).symm

end Parser

end Backtrack
