-- The law of looking ahead: asking for another parser behind the candidates of a parser, and
-- asking that it is absent there, part these candidates between them. Each success of the
-- other parser keeps the candidate once more, its first success is enough to refuse it, and
-- in neither case is anything of it taken.
import Backtrack.Proofs.Draining

namespace Backtrack

namespace Outcome

variable {text : Text} {behind : Int → List Outcome} {o : Outcome} {j : Int} {v : Value}

/-! ## What looking ahead leaves of an outcome -/

/-- The outcome, or a given one in its place if it is a success. -/
def replacedBy (given : Outcome) : Outcome → Outcome
  | success _ _ => given
  | failure index expect => failure index expect

/-- What stands in place of an outcome if another parser is to succeed behind it. -/
def kept (behind : Int → List Outcome) : Outcome → List Outcome
  | success j v => (behind j).map (replacedBy (success j v))
  | failure index expect => [failure index expect]

/-- What stands in place of an outcome if no success of another parser is to be behind it. -/
def spared (text : Text) (behind : Int → List Outcome) : Outcome → Outcome
  | success j v =>
    match successes (behind j) with
    | [] => success j v
    | first :: _ => Parser.presence text j first.index
  | failure index expect => failure index expect

theorem map_firstOnly_through_takenBack (behind : Int → List Outcome) (o : Outcome) :
    (o.through fun j => (behind j).map (takenBack j)).map firstOnly = o.kept behind := by
  cases o with
  | failure index expect => rfl
  | success j v =>
    rw [through, kept, List.map_map, List.map_map]
    refine List.map_congr_left fun o _ => ?_
    cases o <;> rfl

theorem map_firstOnly_through_absent (text : Text) (behind : Int → List Outcome) (o : Outcome) :
    (o.through fun j => [absent text j (behind j)]).map firstOnly = [o.spared text behind] := by
  cases o with
  | failure index expect => rfl
  | success j v =>
    rw [through, spared, absent]
    cases successes (behind j) <;> rfl

theorem isSuccess_replacedBy (o : Outcome) :
    (replacedBy (success j v) o).isSuccess = o.isSuccess := by
  cases o <;> rfl

/-- A success is kept once for each success behind it. -/
theorem successes_kept : successes (kept behind (success j v)) =
    List.replicate (successes (behind j)).length (success j v) := by
  rw [kept, successes_map isSuccess_replacedBy, List.map_eq_replicate_iff]
  intro o ho
  cases o with
  | success index value => rfl
  | failure index expect => cases (List.mem_filter.mp ho).2

theorem failures_kept : failures (kept behind (success j v)) = failures (behind j) :=
  failures_map isSuccess_replacedBy (fun _ _ => rfl) _

/-- What is kept as a success has been that success, and another one stands behind it. -/
theorem success_mem_kept :
    success j v ∈ o.kept behind ↔ o = success j v ∧ successes (behind j) ≠ [] := by
  cases o with
  | failure index expect => simp [kept]
  | success k w =>
    rw [← success_mem_successes, successes_kept, List.mem_replicate, ne_eq, List.length_eq_zero_iff]
    constructor
    · rintro ⟨hsome, hsame⟩
      cases hsame
      exact ⟨rfl, hsome⟩
    · rintro ⟨hsame, hsome⟩
      cases hsame
      exact ⟨hsome, rfl⟩

/-- What is spared as a success has been that success, and none stands behind it. -/
theorem spared_eq_success :
    o.spared text behind = success j v ↔ o = success j v ∧ successes (behind j) = [] := by
  cases o with
  | failure index expect => simp [spared]
  | success k w =>
    constructor
    · intro hspared
      cases hbehind : successes (behind k) with
      | nil =>
        rw [spared, hbehind] at hspared
        cases hspared
        exact ⟨rfl, hbehind⟩
      | cons first rest =>
        rw [spared, hbehind] at hspared
        cases hspared
    · rintro ⟨hsame, hnone⟩
      cases hsame
      rw [spared, hnone]

end Outcome

namespace Parser

variable {rules : Rules} {text : Text} {p q : Parser} {i : Int} {outcomes : List Outcome}
  {behind : Int → List Outcome}

theorem Drains.followedBy (hp : p.Drains rules text i outcomes)
    (hq : ∀ j v, .success j v ∈ outcomes → q.Drains rules text j (behind j)) :
    (p.followedBy q).Drains rules text i (outcomes.flatMap (Outcome.kept behind)) := by
  have hpeek : ∀ j v, .success j v ∈ outcomes →
      q.peek.Drains rules text j ((behind j).map (Outcome.takenBack j)) := fun j v hv =>
    (hq j v hv).peek
  have hdrains := hp.keepFirst hpeek
  simp only [Outcome.map_firstOnly_through_takenBack] at hdrains
  exact hdrains

theorem Drains.notFollowedBy (hp : p.Drains rules text i outcomes)
    (hq : ∀ j v, .success j v ∈ outcomes → q.Drains rules text j (behind j)) :
    (p.notFollowedBy q).Drains rules text i (outcomes.map (Outcome.spared text behind)) := by
  have hnot : ∀ j v, .success j v ∈ outcomes →
      q.not.Drains rules text j [.absent text j (behind j)] := fun j v hv => (hq j v hv).not
  have hdrains := hp.keepFirst hnot
  simp only [Outcome.map_firstOnly_through_absent, ← List.map_eq_flatMap] at hdrains
  exact hdrains

/-! ## The law of looking ahead -/

/-- Asking for another parser behind a parser, and asking for its absence, part the
candidates between them. Both hand the failures on in their places. In place of a success,
asking for the other parser gives what that gives behind it, with every success of that
replaced by this one; and asking for its absence gives one failure, which quotes what the
first success of the other parser takes, or this success where there is none. So every
candidate is kept by exactly one of the two, with its own end and value, and there are no
others. -/
theorem looking_ahead_parts_the_candidates (hp : p.Drains rules text i outcomes)
    (hq : ∀ j v, .success j v ∈ outcomes → q.Drains rules text j (behind j)) :
    (p.followedBy q).Drains rules text i (outcomes.flatMap (Outcome.kept behind)) ∧
    (p.notFollowedBy q).Drains rules text i (outcomes.map (Outcome.spared text behind)) ∧
    (∀ index expect, Outcome.kept behind (.failure index expect) = [.failure index expect] ∧
      Outcome.spared text behind (.failure index expect) = .failure index expect) ∧
    (∀ j v, Outcome.successes (Outcome.kept behind (.success j v)) =
        List.replicate (Outcome.successes (behind j)).length (.success j v) ∧
      Outcome.failures (Outcome.kept behind (.success j v)) = Outcome.failures (behind j) ∧
      (∀ e w rest, Outcome.successes (behind j) = .success e w :: rest →
        Outcome.spared text behind (.success j v) =
          .failure j ("not string " ++ String.ofList (text.between j e))) ∧
      (Outcome.successes (behind j) = [] →
        Outcome.spared text behind (.success j v) = .success j v) ∧
      (.success j v ∈ Outcome.kept behind (.success j v) ↔
        Outcome.spared text behind (.success j v) ≠ .success j v)) ∧
    ∀ j v, (.success j v ∈ outcomes.flatMap (Outcome.kept behind) ↔
        .success j v ∈ outcomes ∧ Outcome.successes (behind j) ≠ []) ∧
      (.success j v ∈ outcomes.map (Outcome.spared text behind) ↔
        .success j v ∈ outcomes ∧ Outcome.successes (behind j) = []) := by
  refine ⟨hp.followedBy hq, hp.notFollowedBy hq, fun _ _ => ⟨rfl, rfl⟩, fun j v =>
    ⟨Outcome.successes_kept, Outcome.failures_kept, fun e w rest hfirst => ?_, fun hnone => ?_, ?_⟩,
    fun j v => ⟨?_, ?_⟩⟩
  · rw [Outcome.spared, hfirst]
    rfl
  · rw [Outcome.spared, hnone]
  · simp only [ne_eq, Outcome.success_mem_kept, Outcome.spared_eq_success, true_and]
  · simp only [List.mem_flatMap, Outcome.success_mem_kept]
    constructor
    · rintro ⟨o, ho, rfl, hsome⟩
      exact ⟨ho, hsome⟩
    · rintro ⟨hv, hsome⟩
      exact ⟨_, hv, rfl, hsome⟩
  · simp only [List.mem_map, Outcome.spared_eq_success]
    constructor
    · rintro ⟨o, ho, rfl, hnone⟩
      exact ⟨ho, hnone⟩
    · rintro ⟨hv, hnone⟩
      exact ⟨_, hv, rfl, hnone⟩

/-- Of two candidates, one has a letter behind it, which is found in two ways, and the other
stands at the end of the text. -/
theorem letters_are_asked_for_behind_candidates :
    let text : Text := ['a', 'b', 'b']
    let p : Parser := choice [string "a", string "x", string "abb"]
    let q : Parser := (string "b").or (string "bb")
    let outcomes : List Outcome :=
      [.success 1 (.str "a"), .failure 0 "string x", .success 3 (.str "abb")]
    let behind : Int → List Outcome := fun j => (q.script .empty text 0 j).outcomes
    p.Drains .empty text 0 outcomes ∧
      (∀ j v, .success j v ∈ outcomes → q.Drains .empty text j (behind j)) ∧
      (p.followedBy q).Drains .empty text 0
        [.success 1 (.str "a"), .success 1 (.str "a"), .failure 0 "string x",
          .failure 3 "string b", .failure 3 "string bb"] ∧
      (p.notFollowedBy q).Drains .empty text 0
        [.failure 1 "not string b", .failure 0 "string x", .success 3 (.str "abb")] := by
  intro text p q outcomes behind
  have hunbroken : (p.script .empty text 0 0).Unbroken := trivial
  have hp : p.Drains .empty text 0 outcomes := drains_of_unbroken hunbroken
  have hq : ∀ j v, .success j v ∈ outcomes → q.Drains .empty text j (behind j) := by
    intro j v hv
    simp only [outcomes, List.mem_cons, List.not_mem_nil, Outcome.success.injEq, reduceCtorEq,
      or_false, false_or] at hv
    apply drains_of_unbroken
    rcases hv with ⟨rfl, _⟩ | ⟨rfl, _⟩ <;> trivial
  obtain ⟨hkept, hspared, _⟩ := looking_ahead_parts_the_candidates hp hq
  exact ⟨hp, hq, hkept, hspared⟩

end Parser

end Backtrack
