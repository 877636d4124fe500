-- The law of repetition: any number of repetitions are all chains of items, every chain
-- once, extensions of a chain before the chain. Carried by one equation for the script
-- of repetitions and an induction on how many of them may follow each other.
import Backtrack.Proofs.Chains
import Backtrack.Proofs.Stream.Showing
import Mathlib.Data.Set.Finite.Lattice

namespace Backtrack

/-! ## One more item -/

namespace Outcome

/-- The outcome with a value put before those of a success. -/
def consOnto (value : Value) : Outcome → Outcome
  | success index others => success index (.list (value :: others.elements?.getD []))
  | failure index expect => failure index expect

theorem isSuccess_consOnto (value : Value) (o : Outcome) :
    (o.consOnto value).isSuccess = o.isSuccess := by
  cases o <;> rfl

theorem successes_map_consOnto (value : Value) (outcomes : List Outcome) :
    successes (outcomes.map (consOnto value)) = (successes outcomes).map (consOnto value) :=
  successes_map (isSuccess_consOnto value) outcomes

theorem failures_map_consOnto (value : Value) (outcomes : List Outcome) :
    failures (outcomes.map (consOnto value)) = failures outcomes :=
  failures_map (isSuccess_consOnto value) (fun _ _ => rfl) outcomes

end Outcome

namespace Parser

/-- What repetitions make of an outcome of the item: a success goes on with the further
ones, which get its value. -/
def extended (further : Int → Script) : Outcome → Script
  | .failure index expect => .single (.failure index expect)
  | .success index value => (further index).expand fun o => .single (o.consOnto value)

/-- The item with further ones behind each of its successes, and then no item. -/
def moreOrNone (item : Script) (further : Int → Script) (i : Int) : Script :=
  (item.expand (extended further)).append (.single (.success i (.list [])))

variable {body further : Int → Script} {n : Nat} {i : Int}

/-- Progress asks nothing of successes that move on. -/
theorem change_requireProgress {s : Script} (hmoves : ∀ j v, .success j v ∈ s.outcomes → i < j) :
    s.change (requireProgress · i) = s := by
  unfold Script.change
  refine Eq.trans (Script.expand_congr fun o ho => ?_) s.expand_outcome
  cases o with
  | failure index expect => rfl
  | success j v =>
    have hj : ¬ j ≤ i := by
      have := hmoves j v ho
      omega
    simp only [requireProgress, if_neg hj]
    rfl

/-- Putting a value before others always makes a list. -/
theorem list_of_consValues {v w : Value} (h : (consValues v).result = .ok w) :
    ∃ ws, w = .list ws := by
  rw [result_consValues] at h
  split at h
  · cases h
  · cases h
    exact ⟨_, rfl⟩

/-- Every success of repetitions has a list for its value. -/
theorem list_of_mem_repeated {j : Int} {w : Value}
    (h : .success j w ∈ (repeated body n i).outcomes) : ∃ ws, w = .list ws := by
  cases n with
  | zero => cases h
  | succ n =>
    rcases Script.mem_outcomes_append h with h | h
    · obtain ⟨o, _, hresult⟩ := Script.mem_outcomes_change h
      rcases result_onValue hresult with ⟨_, _, rfl, h⟩ | ⟨k, v, w', _, hv, h⟩
      · cases h
      · cases h
        exact list_of_consValues hv
    · cases List.mem_singleton.mp h
      exact ⟨[], rfl⟩

/-- A value goes before all lists that come behind it. -/
theorem change_consValues (s : Script)
    (hlists : ∀ i j v, .success j v ∈ (further i).outcomes → ∃ vs, v = .list vs) :
    ((s.pairWith further).change fun o => onValue consValues o i) = s.expand (extended further) := by
  rw [Script.change, Script.pairWith, Script.expand_expand]
  congr 1
  funext o
  cases o with
  | failure index expect => rfl
  | success j v =>
    rw [extended]
    simp only [Script.expand_expand]
    refine Script.expand_congr fun o ho => ?_
    cases o with
    | failure index expect => rfl
    | success k w =>
      obtain ⟨ws, rfl⟩ := hlists j k w ho
      rfl

/-- Repetitions that move on are one item with further repetitions behind each of its
successes, and none at last. -/
theorem repeated_succ (hmoves : ∀ j v, .success j v ∈ (body i).outcomes → i < j) :
    repeated body (n + 1) i = moreOrNone (body i) (repeated body n) i := by
  rw [repeated, moreOrNone, change_requireProgress hmoves,
    change_consValues _ fun _ _ _ h => list_of_mem_repeated h]

end Parser

/-! ## Repetitions and chains -/

/-- Events and outcomes that enumerate chains of items: `stream` are the outcomes of the
item at each offset, and `recorded` are the events of reading them to their end, with the
call of the step function that begins it. -/
structure Enumerates (stream : Int → List Outcome) (recorded : Int → List Event) (i : Int)
    (chains : List Chain) (events : List Event) (outcomes : List Outcome) : Prop where
  /-- Each chain gives one success, and they stand in the order of the chains. -/
  successes : Outcome.successes outcomes = chains.map (Chain.outcome i)
  /-- The last outcome of all is the success of the chain without items. -/
  last : outcomes.getLast? = some (.success i (.list []))
  /-- For each chain, every failure of the item at its end is given once, and there are
  no others. -/
  failures : (Outcome.failures outcomes).Perm
    (chains.flatMap fun a => Outcome.failures (stream (Chain.stop i a)))
  /-- For each chain, the item is called and read once at its end, and nothing else is
  recorded. -/
  runs : events.Perm (chains.flatMap fun a => recorded (Chain.stop i a))

/-- What is known of the item at the ends of all chains: its script without a fault, and
that every success moves on. All chains have fewer items than the number. -/
structure Covers (body : Int → Script) (stream : Int → List Outcome)
    (recorded : Int → List Event) (n : Nat) (i : Int) : Prop where
  holds : ∀ a, Chain.Links stream i a →
    (body (Chain.stop i a)).Holds (recorded (Chain.stop i a)) (stream (Chain.stop i a))
  moves : ∀ a, Chain.Links stream i a → ∀ j v, .success j v ∈ stream (Chain.stop i a) →
    Chain.stop i a < j
  short : ∀ a, Chain.Links stream i a → a.length < n

namespace Covers

variable {body : Int → Script} {stream : Int → List Outcome} {recorded : Int → List Event}
  {n : Nat} {i : Int}

/-- What is known at an offset is known at the end of each candidate there, with one item
less to come. -/
theorem behind (h : Covers body stream recorded (n + 1) i) {c : Candidate}
    (hc : c ∈ Outcome.candidates (stream i)) : Covers body stream recorded n c.stop := by
  have hcons : ∀ a, Chain.Links stream c.stop a → Chain.Links stream i (c :: a) :=
    fun a ha => ⟨Outcome.mem_candidates.mp hc, ha⟩
  constructor
  · intro a ha
    exact h.holds (c :: a) (hcons a ha)
  · intro a ha
    exact h.moves (c :: a) (hcons a ha)
  · intro a ha
    exact Nat.lt_of_succ_lt_succ (h.short (c :: a) (hcons a ha))

end Covers

namespace Parser

variable {body further : Int → Script} {stream : Int → List Outcome}
  {recorded : Int → List Event} {n : Nat} {i : Int}

/-! ## One item before enumerated ones -/

/-- What becomes of one outcome of the item. -/
theorem outcomes_extended (o : Outcome) : (extended further o).outcomes = match o with
    | .failure index expect => [.failure index expect]
    | .success index value => (further index).outcomes.map (Outcome.consOnto value) := by
  cases o with
  | failure index expect => rfl
  | success index value => exact Script.outcomes_expand_single

theorem events_extended (o : Outcome) : (extended further o).events = match o with
    | .failure _ _ => []
    | .success index _ => (further index).events := by
  cases o with
  | failure index expect => rfl
  | success index value => exact Script.events_expand_single

/-- The successes are those of the chains that begin with a candidate. -/
theorem successes_extended
    (h : ∀ c ∈ Outcome.candidates (stream i), Outcome.successes (further c.stop).outcomes =
      (Chain.all stream n c.stop).map (Chain.outcome c.stop)) :
    Outcome.successes ((stream i).flatMap fun o => (extended further o).outcomes) =
      ((Outcome.candidates (stream i)).flatMap fun c =>
        (Chain.all stream n c.stop).map (c :: ·)).map (Chain.outcome i) := by
  unfold Outcome.successes
  rw [List.filter_flatMap, Outcome.flatMap_candidates _ fun _ _ => rfl, List.map_flatMap]
  refine List.flatMap_congr fun c hc => ?_
  have hbehind := Outcome.successes_map_consOnto c.value (further c.stop).outcomes
  rw [h c hc, List.map_map] at hbehind
  rw [outcomes_extended, List.map_map]
  exact hbehind

/-- The failures of further items that stand behind an outcome. -/
def failuresBehind (further : Int → Script) : Outcome → List Outcome
  | .failure _ _ => []
  | .success index _ => Outcome.failures (further index).outcomes

/-- An outcome gives the failures behind it, and itself if it is one. -/
theorem failures_outcomes_extended (o : Outcome) :
    Outcome.failures (extended further o).outcomes =
      failuresBehind further o ++ Outcome.failures [o] := by
  rw [outcomes_extended]
  cases o with
  | failure index expect => rfl
  | success index value =>
    rw [Outcome.failures_map_consOnto]
    exact (List.append_nil _).symm

/-- The failures are those of the item and those behind its candidates. -/
theorem failures_extended :
    (Outcome.failures ((stream i).flatMap fun o => (extended further o).outcomes)).Perm
      (((Outcome.candidates (stream i)).flatMap fun c => Outcome.failures (further c.stop).outcomes) ++
        Outcome.failures (stream i)) := by
  have hown : (stream i).flatMap (fun o => Outcome.failures [o]) = Outcome.failures (stream i) := by
    unfold Outcome.failures
    rw [← List.filter_flatMap, List.flatMap_singleton']
  calc Outcome.failures ((stream i).flatMap fun o => (extended further o).outcomes)
      = (stream i).flatMap fun o => failuresBehind further o ++ Outcome.failures [o] := by
        unfold Outcome.failures
        rw [List.filter_flatMap]
        exact List.flatMap_congr fun o _ => failures_outcomes_extended o
    _ |>.Perm ((stream i).flatMap (failuresBehind further) ++
          (stream i).flatMap fun o => Outcome.failures [o]) :=
        (List.flatMap_append_perm _ _ _).symm
    _ = ((Outcome.candidates (stream i)).flatMap fun c => Outcome.failures (further c.stop).outcomes) ++
        Outcome.failures (stream i) := by
        rw [Outcome.flatMap_candidates _ fun _ _ => rfl, hown]
        rfl

/-- The item is read once before all that stands behind its candidates. -/
theorem events_expand_extended {item : Script} (hitem : item.Holds (recorded i) (stream i))
    (h : (item.expand (extended further)).Unbroken) :
    (item.expand (extended further)).events.Perm
      (((Outcome.candidates (stream i)).flatMap fun c => (further c.stop).events) ++ recorded i) := by
  have hbehind : (item.outcomes.flatMap fun o => (extended further o).events) =
      (Outcome.candidates (stream i)).flatMap fun c => (further c.stop).events := by
    rw [hitem.outcomes_eq, Outcome.flatMap_candidates _ fun _ _ => events_extended _]
    exact List.flatMap_congr fun c _ => events_extended _
  have hmixed := Script.events_expand h
  rw [hbehind, hitem.events_eq] at hmixed
  exact hmixed.trans List.perm_append_comm

/-- Where further items enumerate the chains from the end of each candidate of an item, the
item with them behind it, and then none, enumerate the chains from its start. -/
theorem enumerates_moreOrNone {item : Script} (hitem : item.Holds (recorded i) (stream i))
    (h : ∀ c ∈ Outcome.candidates (stream i), (further c.stop).Unbroken ∧
      Enumerates stream recorded c.stop (Chain.all stream n c.stop) (further c.stop).events
        (further c.stop).outcomes) :
    (moreOrNone item further i).Unbroken ∧
      Enumerates stream recorded i (Chain.all stream (n + 1) i)
        (moreOrNone item further i).events (moreOrNone item further i).outcomes := by
  unfold moreOrNone
  have hmore : (item.expand (extended further)).Unbroken := by
    refine Script.unbroken_expand.mpr ⟨hitem.unbroken, fun o ho => ?_⟩
    cases o with
    | failure index expect => trivial
    | success j v =>
      rw [hitem.outcomes_eq] at ho
      obtain ⟨place, hplace⟩ := List.mem_iff_getElem?.mp ho
      have hc : ⟨place, j, v⟩ ∈ Outcome.candidates (stream i) := Outcome.mem_candidates.mpr hplace
      exact Script.unbroken_expand_single.mpr (h _ hc).1
  have houtcomes : (item.expand (extended further)).outcomes =
      (stream i).flatMap fun o => (extended further o).outcomes := by
    rw [Script.outcomes_expand hmore, hitem.outcomes_eq]
  refine ⟨Script.unbroken_append.mpr ⟨hmore, trivial⟩, ?_⟩
  rw [Script.outcomes_append hmore, Script.events_append hmore, houtcomes]
  have hsuccesses := successes_extended fun c hc => (h c hc).2.successes
  constructor
  · rw [Chain.all, List.map_append, ← hsuccesses]
    exact List.filter_append _ _
  · simp [Script.outcomes_single]
  · have hbehind := List.Perm.flatMap_left (Outcome.candidates (stream i))
      fun c hc => (h c hc).2.failures
    -- The success of the empty chain stands last, and is no failure.
    have hlast : Outcome.failures (((stream i).flatMap fun o => (extended further o).outcomes) ++
        (Script.single (.success i (.list []))).outcomes) =
          Outcome.failures ((stream i).flatMap fun o => (extended further o).outcomes) := by
      unfold Outcome.failures
      rw [List.filter_append]
      exact List.append_nil _
    rw [Chain.flatMap_all_succ fun j => Outcome.failures (stream j), hlast]
    exact failures_extended.trans (hbehind.append_right _)
  · have hbehind := List.Perm.flatMap_left (Outcome.candidates (stream i))
      fun c hc => (h c hc).2.runs
    have hlast : (Script.single (.success i (.list []))).events = [] := rfl
    rw [Chain.flatMap_all_succ recorded, hlast, List.append_nil]
    exact (events_expand_extended hitem hmore).trans (hbehind.append_right _)

/-! ## Repetitions -/

/-- Where the items of all chains are known, repetitions enumerate the chains. -/
theorem enumerates_repeated (h : Covers body stream recorded n i) :
    (repeated body n i).Unbroken ∧ Enumerates stream recorded i (Chain.all stream n i)
      (repeated body n i).events (repeated body n i).outcomes := by
  -- On how many items may follow each other: each candidate hands on what is known of the
  -- chains, with one item less to come.
  induction n generalizing i with
  | zero => exact absurd (h.short [] trivial) (Nat.lt_irrefl 0)
  | succ n ih =>
    have hitem : (body i).Holds (recorded i) (stream i) := h.holds [] trivial
    have hmoves : ∀ j v, .success j v ∈ (body i).outcomes → i < j := by
      intro j v hv
      rw [hitem.outcomes_eq] at hv
      exact h.moves [] trivial j v hv
    rw [repeated_succ hmoves]
    exact enumerates_moreOrNone hitem fun c hc => ih (h.behind hc)

/-! ## The law of repetition -/

variable {rules : Rules} {text : Text} {p : Parser}

/-- Let the item, read to its end at the end of each chain from a start, meet no fault
and give and record what is said of that offset, let all its successes move on, and let
there be finitely many chains. Then any number of repetitions are read to their end
without a fault and enumerate the chains: each chain is there once, a chain stands before
another exactly if it precedes it, and where the item records one call for each time it is
read, as many calls are recorded as there are chains. -/
theorem repetitions_are_the_chains {stream : Int → List Outcome} {recorded : Int → List Event}
    (hitems : ∀ a, Chain.Links stream i a → p.Exhausts rules text (Chain.stop i a)
      (recorded (Chain.stop i a)) (stream (Chain.stop i a)))
    (hmoves : ∀ a, Chain.Links stream i a → ∀ j v, .success j v ∈ stream (Chain.stop i a) →
      Chain.stop i a < j)
    (hfinite : Set.Finite {a | Chain.Links stream i a}) :
    ∃ events outcomes chains, p.many.Exhausts rules text i events outcomes ∧
      (∀ a, a ∈ chains ↔ Chain.Links stream i a) ∧ chains.Nodup ∧
      (∀ x y (hx : x < chains.length) (hy : y < chains.length),
        x < y ↔ Chain.Precedes chains[x] chains[y]) ∧
      Enumerates stream recorded i chains events outcomes ∧
      ∀ call : Event → Bool, (∀ a ∈ chains, (recorded (Chain.stop i a)).countP call = 1) →
        events.countP call = chains.length := by
  choose! known hknown using fun a ha => exhausts_iff_holds.mp (hitems a ha)
  -- One limit does for all chains, since they are finitely many.
  obtain ⟨limit, hlimit⟩ := (hfinite.image fun a => max (known a) (a.length + 1)).bddAbove
  have hle : ∀ a, Chain.Links stream i a → known a ≤ limit ∧ a.length < limit := by
    intro a ha
    have h := hlimit (Set.mem_image_of_mem _ ha)
    simp only [Nat.max_le] at h
    exact h
  have hcovers : Covers (p.script rules text limit) stream recorded limit i := by
    constructor
    · intro a ha
      exact (hknown a ha).of_le (script_le (hle a ha).1 p _)
    · exact hmoves
    · intro a ha
      exact (hle a ha).2
  obtain ⟨hunbroken, henumerates⟩ := enumerates_repeated hcovers
  rw [← script_many] at hunbroken henumerates
  refine ⟨_, _, Chain.all stream limit i, exhausts_iff_holds.mpr ⟨limit, hunbroken.holds⟩, ?_,
    Chain.all_nodup limit i, Chain.lt_iff_precedes (Chain.all_pairwise limit i), henumerates, ?_⟩
  · intro a
    rw [Chain.mem_all]
    exact and_iff_left_of_imp fun ha => (hle a ha).2
  · intro call hcall
    have hone := List.map_congr_left hcall
    rw [henumerates.runs.countP_eq, List.countP_flatMap]
    exact (congrArg List.sum hone).trans (by simp)

/-- The ways to take one letter or two of a text at an offset. -/
def oneOrTwo (text : Text) (i : Int) : List Outcome :=
  [if i < text.length then .success (i + 1) (.int 1) else .failure i "a letter",
    if i + 1 < text.length then .success (i + 2) (.int 2) else .failure i "two letters"]

theorem moves_of_mem_oneOrTwo {i j : Int} {v : Value} (h : .success j v ∈ oneOrTwo text i) :
    i < j ∧ j ≤ text.length := by
  simp only [oneOrTwo, List.mem_cons, List.not_mem_nil, or_false] at h
  rcases h with h | h
  · by_cases hi : i < text.length
    · rw [if_pos hi] at h
      cases h
      omega
    · rw [if_neg hi] at h
      cases h
  · by_cases hi : i + 1 < text.length
    · rw [if_pos hi] at h
      cases h
      omega
    · rw [if_neg hi] at h
      cases h

/-- Three letters can be taken from the start in seven ways, one or two at a time, and so
the step function is called seven times. -/
theorem three_letters_take_seven_calls :
    let text : Text := ['a', 'b', 'c']
    let p : Parser := custom fun text i => ⟨[.called "p" i], .ok (.ofOutcomes (oneOrTwo text i))⟩
    let recorded : Int → List Event := fun i => [.called "p" i]
    (∀ a, Chain.Links (oneOrTwo text) 0 a → p.Exhausts .empty text (Chain.stop 0 a)
      (recorded (Chain.stop 0 a)) (oneOrTwo text (Chain.stop 0 a))) ∧
    (∀ a, Chain.Links (oneOrTwo text) 0 a → ∀ j v, .success j v ∈ oneOrTwo text (Chain.stop 0 a) →
      Chain.stop 0 a < j) ∧
    Set.Finite {a | Chain.Links (oneOrTwo text) 0 a} ∧
    ∃ events outcomes, p.many.Exhausts .empty text 0 events outcomes ∧
      events.countP (fun e => e matches .called _ _) = 7 := by
  intro text p recorded
  have hitems : ∀ a, Chain.Links (oneOrTwo text) 0 a → p.Exhausts .empty text (Chain.stop 0 a)
      (recorded (Chain.stop 0 a)) (oneOrTwo text (Chain.stop 0 a)) := by
    intro a _
    refine exhausts_iff_holds.mpr ⟨0, ?_⟩
    rw [script_custom]
    exact ⟨trivial, rfl, rfl⟩
  have hwithin : ∀ a, Chain.Links (oneOrTwo text) 0 a → ∀ j v,
      .success j v ∈ oneOrTwo text (Chain.stop 0 a) → Chain.stop 0 a < j ∧ j ≤ text.length :=
    fun a _ j v hv => moves_of_mem_oneOrTwo hv
  have hmoves : ∀ a, Chain.Links (oneOrTwo text) 0 a → ∀ j v,
      .success j v ∈ oneOrTwo text (Chain.stop 0 a) → Chain.stop 0 a < j :=
    fun a ha j v hv => (hwithin a ha j v hv).1
  have hfinite := Chain.finite_of_moving hwithin
  obtain ⟨events, outcomes, chains, hexhausts, hmem, hnodup, _, _, hcalls⟩ :=
    repetitions_are_the_chains hitems hmoves hfinite
  -- No chain has more items than the text has letters, so those of fewer than four are all.
  have hall : ∀ a, a ∈ chains ↔ a ∈ Chain.all (oneOrTwo text) 4 0 := by
    intro a
    rw [hmem, Chain.mem_all]
    refine (and_iff_left_of_imp fun ha => ?_).symm
    have hlength := Chain.length_le_of_moving ha hwithin
    have htext : (text.length : Int) = 3 := rfl
    omega
  have hperm := (List.perm_ext_iff_of_nodup hnodup (Chain.all_nodup 4 0)).mpr hall
  refine ⟨hitems, hmoves, hfinite, events, outcomes, hexhausts, ?_⟩
  rw [hcalls _ fun a _ => rfl, hperm.length_eq]
  decide +kernel

end Parser

end Backtrack
