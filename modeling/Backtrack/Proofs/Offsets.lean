-- The laws of offsets: a leaf ends between its start and the end of the text, and
-- what holds of the outcomes of all leaves holds of the outcomes of all parsers
-- made of them, if no way of putting parsers together breaks it.
import Backtrack.Proofs.Parts

namespace Backtrack

/-! ## Leaves -/

namespace Text

/-- What is left of a text from an offset on does not reach beyond its end. -/
theorem add_length_remainder_le (text : Text) (offset : Int) :
    offset + (text.remainder offset).length ≤ max offset text.length := by
  simp only [remainder, List.length_drop, place]
  split <;> omega

theorem length_le_of_holds {text literal : Text} {offset : Int} (h : text.holds literal offset) :
    literal.length ≤ (text.remainder offset).length := by
  simp only [holds, Bool.and_eq_true, List.isPrefixOf_iff_prefix] at h
  exact h.2.length_le

/-- Offsets that move forward and stop at the end of the text cannot move forever. -/
theorem forward_induction (text : Text) {P : Int → Prop}
    (h : ∀ i : Int, (∀ j : Int, i < j → j ≤ max i text.length → P j) → P i) (i : Int) : P i := by
  induction hm : (text.length - i).toNat using Nat.strongRecOn generalizing i with
  | _ m ih =>
    refine h i fun j hij hj => ih (text.length - j).toNat ?_ j rfl
    omega

end Text

/-- The outcome stands between its start and the end of the text, or at its start
if that lies beyond the end. -/
def Outcome.Within (text : Text) (start : Int) (o : Outcome) : Prop :=
  start ≤ o.index ∧ o.index ≤ max start text.length

/-- A success does not reach beyond the end of the text, nor beyond a start that
lies there. Nothing is said of failures. -/
def Outcome.SucceedsWithin (text : Text) (start : Int) (o : Outcome) : Prop :=
  ∀ index value, o = .success index value → index ≤ max start text.length

theorem Outcome.Within.succeedsWithin {text : Text} {start : Int} {o : Outcome}
    (h : o.Within text start) : o.SucceedsWithin text start := by
  rintro index value rfl
  exact h.2

theorem Leaf.within_of_attempt {text : Text} {start : Int} {l : Leaf} {o : Outcome}
    (h : l.attempt text start = .ok o) : o.Within text start := by
  have hrest := text.add_length_remainder_le start
  cases o with
  | failure index expect =>
    have hi := index_of_attempt_failure h
    simp only [Outcome.Within, Outcome.index]
    omega
  | success index value =>
    simp only [Outcome.Within, Outcome.index]
    cases l with
    | string literal =>
      simp only [attempt] at h
      split at h
      · rename_i hh
        have hl := Text.length_le_of_holds hh
        rw [String.length_toList] at hl
        cases h
        omega
      · cases h
    | regexp pattern group =>
      simp only [attempt] at h
      split at h
      · rename_i found hf
        have hl := Pattern.length_le_of_find hf
        cases h
        omega
      · cases h
      · cases h
      · cases h
    | endOfText =>
      simp only [attempt] at h
      split at h
      · cases h
        omega
      · cases h
    | succeed v =>
      cases h
      omega
    | fail e => cases h

/-! ## Laws of all outcomes -/

/-- What holds of a start and an outcome of every leaf, and is not broken where
the parts of a parser are put together. -/
structure OutcomeLaw (text : Text) (R : Int → Outcome → Prop) : Prop where
  leaf : ∀ {l : Leaf} {i o}, l.attempt text i = .ok o → R i o
  paired : ∀ {i j v o}, R i (.success j v) → R j o → R i (o.pairedWith v)
  revalued : ∀ {i j v} (w), R i (.success j v) → R i (.success j w)
  redescribed : ∀ {i j e} (e'), R i (.failure j e) → R i (.failure j e')
  absent : ∀ i, R i (.success i .none)
  present : ∀ i j, R i (Parser.presence text i j)

namespace Parser

/-- The functions of the user's in the parser keep to the law: every outcome of a
step function does, and a change of outcomes does where it is given one that does. -/
def Keeps (text : Text) (R : Int → Outcome → Prop) : Parser → Prop :=
  Everywhere fun
    | custom step => ∀ i, ∀ o ∈ (Script.ofAction (step text i)).outcomes, R i o
    | mapOutcome change _ => ∀ i o o', R i o → (change o i).result = .ok o' → R i o'
    | _ => True

end Parser

namespace OutcomeLaw

variable {text : Text} {R : Int → Outcome → Prop} (law : OutcomeLaw text R)
include law

theorem of_mem_pairWith {s : Script} {second : Int → Script} {i : Int}
    (hs : ∀ o ∈ s.outcomes, R i o) (hsecond : ∀ j, ∀ o ∈ (second j).outcomes, R j o)
    {o : Outcome} (ho : o ∈ (s.pairWith second).outcomes) : R i o := by
  rcases Script.mem_outcomes_pairWith ho with ⟨_, _, _, h⟩ | ⟨j, v, o', hj, ho', rfl⟩
  · exact hs o h
  · exact law.paired (hs _ hj) (hsecond j o' ho')

theorem of_onValue {f : Value → Action Value} {i : Int} {o o' : Outcome} (ho : R i o)
    (h : (Parser.onValue f o i).result = .ok o') : R i o' := by
  rcases Parser.result_onValue h with ⟨_, _, _, rfl⟩ | ⟨j, v, w, rfl, _, rfl⟩
  · exact ho
  · exact law.revalued w ho

/-- Functions of values are never asked to keep to the law. -/
theorem keeps_map {p : Parser} (f : Value → Action Value) (hp : p.Keeps text R) :
    (p.map f).Keeps text R :=
  ⟨fun _ _ _ ho h => law.of_onValue ho h, hp⟩

theorem keeps_peek {p : Parser} (hp : p.Keeps text R) : p.peek.Keeps text R := by
  refine ⟨fun i o o' ho h => ?_, hp⟩
  cases o with
  | success j v =>
    cases h
    exact law.revalued v (law.absent i)
  | failure j e =>
    cases h
    exact ho

theorem keeps_sepBy {p separator : Parser} (hp : p.Keeps text R) (hs : separator.Keeps text R) :
    (p.sepBy separator).Keeps text R := by
  have hlater : (separator.keepSecond p).Keeps text R := law.keeps_map _ ⟨trivial, hs, hp⟩
  exact ⟨trivial, law.keeps_map _ ⟨trivial, hp, trivial, hlater⟩, trivial⟩

theorem of_mem_repeated {body : Int → Script} (hbody : ∀ i, ∀ o ∈ (body i).outcomes, R i o)
    {n : Nat} {i : Int} {o : Outcome} (ho : o ∈ (Parser.repeated body n i).outcomes) : R i o := by
  induction n generalizing i o with
  | zero => cases ho
  | succ n ih =>
    rcases Script.mem_outcomes_append ho with ho | ho
    · obtain ⟨o', ho', h⟩ := Script.mem_outcomes_change ho
      refine law.of_onValue (law.of_mem_pairWith (fun o'' ho'' => ?_) (fun j o'' => ih) ho') h
      obtain ⟨o₀, ho₀, h⟩ := Script.mem_outcomes_change ho''
      exact Parser.result_requireProgress h |>.1 ▸ hbody i o₀ ho₀
    · rw [Script.outcomes_single, List.mem_singleton] at ho
      exact ho ▸ law.revalued _ (law.absent i)

/-- One level of recursion: the law holds of a parser if it holds of the recursive
parsers. -/
theorem of_mem_scriptWith {recursive : Handle → Int → Script}
    (hr : ∀ handle i, ∀ o ∈ (recursive handle i).outcomes, R i o) {n : Nat} {p : Parser}
    (hp : p.Keeps text R) {i : Int} {o : Outcome}
    (ho : o ∈ (p.scriptWith text n recursive i).outcomes) : R i o := by
  induction p generalizing i o with
  | leaf l => exact law.leaf (Script.mem_outcomes_ofResult.mp ho)
  | custom step => exact hp i o ho
  | pair p q ihp ihq =>
    exact law.of_mem_pairWith (fun o => ihp hp.2.1) (fun j o => ihq hp.2.2) ho
  | or p q ihp ihq =>
    rcases Script.mem_outcomes_append ho with ho | ho
    · exact ihp hp.2.1 ho
    · exact ihq hp.2.2 ho
  | mapOutcome change p ih =>
    obtain ⟨o', ho', h⟩ := Script.mem_outcomes_change ho
    exact hp.1 i o' o (ih hp.2 ho') h
  | not p ih =>
    rcases Script.mem_outcomes_negate ho with ⟨stop, rfl⟩ | rfl
    · exact law.present i stop
    · exact law.absent i
  | many p ih => exact law.of_mem_repeated (fun i o => ih hp.2) ho
  | ref handle => exact hr handle i o ho

/-- A law of outcomes holds of all that stands in the script of a parser. -/
theorem of_mem_script {rules : Rules} (hrules : rules.All (Parser.Keeps text R)) {n : Nat}
    {p : Parser} (hp : p.Keeps text R) {i : Int} {o : Outcome}
    (ho : o ∈ (p.script rules text n i).outcomes) : R i o := by
  induction n generalizing p i o with
  | zero => exact law.of_mem_scriptWith (fun _ _ o h => by cases h) hp ho
  | succ n ih =>
    refine law.of_mem_scriptWith (fun handle i o h => ?_) hp ho
    cases hb : rules.body? handle with
    | none =>
      rw [hb] at h
      cases h
    | some body =>
      rw [hb] at h
      exact ih (hrules handle body hb) h

end OutcomeLaw

/-! ## The laws of offsets -/

/-- Offsets lie between the start and the end of the text. -/
theorem Outcome.Within.law (text : Text) : OutcomeLaw text (Outcome.Within text) where
  leaf h := Leaf.within_of_attempt h
  paired {i j v o} hj ho := by
    have hindex : (o.pairedWith v).index = o.index := by cases o <;> rfl
    simp only [Within, Outcome.index] at hj
    simp only [Within, hindex] at ho ⊢
    omega
  revalued _ h := h
  redescribed _ h := h
  absent i := by
    simp only [Within, Outcome.index]
    omega
  present i j := by
    simp only [Within, Parser.presence, Outcome.index]
    omega

/-- Successes do not reach beyond the end of the text. -/
theorem Outcome.SucceedsWithin.law (text : Text) :
    OutcomeLaw text (Outcome.SucceedsWithin text) where
  leaf h := (Leaf.within_of_attempt h).succeedsWithin
  paired {i j v o} hj ho := by
    intro k w hk
    cases o with
    | failure index expect => cases hk
    | success index value =>
      cases hk
      have hi := hj j v rfl
      have hk := ho _ _ rfl
      omega
  revalued {i j v} w h := by
    intro k x hk
    cases hk
    exact h j v rfl
  redescribed _ _ := by
    intro k x hk
    cases hk
  absent i := by
    intro k w hk
    cases hk
    omega
  present i j := by
    intro k w hk
    cases hk

end Backtrack
