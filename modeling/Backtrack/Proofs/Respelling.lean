-- Grammars with their repetitions written as recursions. Any number of repetitions is a recursion
-- without a name of its own: one repetition that advances and then the recursion again, or
-- nothing. What is repeated is built before it, and all else about the grammar stays as it is.
import Backtrack.Proofs.Handles

namespace Backtrack

/-! ## Repetitions written as recursions -/

/-- Any number of repetitions as a recursive grammar: one that advances and then the recursion
again, or nothing. What is repeated is built once, before the recursion. -/
def Grammar.repetition (g : Grammar) : Grammar :=
  .given ["item"] [.unary (.mapOutcome Parser.requireProgress) g]
    (.recursive "rest" none
      (.binary .or (.binary .cons (.ref "item") (.ref "rest")) (.leaf (.succeed (.list [])))))

/-- One repetition or more of what is built once. -/
def Grammar.repetition1 (g : Grammar) : Grammar :=
  .given ["item"] [g] (.binary .cons (.ref "item") (.repetition (.ref "item")))

/-- One or more with a separator between them, each of which is built once. -/
def Grammar.separated (g separator : Grammar) : Grammar :=
  .given ["item", "separator"] [g, separator]
    (.binary .cons (.ref "item") (.repetition (.binary .keepSecond (.ref "separator") (.ref "item"))))

/-- An operator on one grammar, with its repetitions written as recursions. -/
def UnaryOp.spelled (g : Grammar) : UnaryOp → Grammar
  | many => g.repetition
  | many1 => g.repetition1
  | op => .unary op g

/-- An operator on two grammars, with its repetitions written as recursions. -/
def BinaryOp.spelled (g h : Grammar) : BinaryOp → Grammar
  | sepBy1 => g.separated h
  | sepBy => .binary .or (g.separated h) (.leaf (.succeed (.list [])))
  | op => .binary op g h

theorem UnaryOp.spelled_of_ne (op : UnaryOp) (g : Grammar) (hmany : op ≠ .many) (hmany1 : op ≠ .many1) :
    op.spelled g = .unary op g := by
  cases op with
  | many => exact (hmany rfl).elim
  | many1 => exact (hmany1 rfl).elim
  | _ => rfl

theorem BinaryOp.spelled_of_ne (op : BinaryOp) (g h : Grammar) (hsepBy : op ≠ .sepBy)
    (hsepBy1 : op ≠ .sepBy1) : op.spelled g h = .binary op g h := by
  cases op with
  | sepBy => exact (hsepBy rfl).elim
  | sepBy1 => exact (hsepBy1 rfl).elim
  | _ => rfl

namespace Grammar

mutual

/-- The grammar with all its repetitions written as recursions. -/
def spelled : Grammar → Grammar
  | unary op g => op.spelled g.spelled
  | binary op g h => op.spelled g.spelled h.spelled
  | seq gs => seq (spelledAll gs)
  | choice gs => choice (spelledAll gs)
  | recursive name early g => recursive name early g.spelled
  | given names gs body => given names (spelledAll gs) body.spelled
  | leaf l => leaf l
  | regexp w => regexp w
  | ref name => ref name
  | custom step => custom step

def spelledAll : List Grammar → List Grammar
  | [] => []
  | g :: gs => g.spelled :: spelledAll gs

end

/-! ## What stays as it is -/

variable {names : List String} {g h : Grammar}

theorem length_spelledAll (gs : List Grammar) : (spelledAll gs).length = gs.length := by
  induction gs with
  | nil => simp [spelledAll]
  | cons g gs ih => simp [spelledAll, ih]

theorem wellFormed_repetition (hg : g.WellFormed names) : g.repetition.WellFormed names := by
  simp [repetition, WellFormed, AllWellFormed, hg]

theorem wellFormed_repetition1 (hg : g.WellFormed names) : g.repetition1.WellFormed names :=
  ⟨rfl, ⟨hg, trivial⟩, List.mem_cons_self, wellFormed_repetition List.mem_cons_self⟩

theorem wellFormed_separated (hg : g.WellFormed names) (hh : h.WellFormed names) :
    (g.separated h).WellFormed names := by
  refine ⟨rfl, ⟨hg, hh, trivial⟩, List.mem_cons_self, wellFormed_repetition ⟨?_, List.mem_cons_self⟩⟩
  exact List.mem_cons_of_mem _ List.mem_cons_self

mutual

theorem wellFormed_spelled {names : List String} (g : Grammar) (hg : g.WellFormed names) :
    g.spelled.WellFormed names := by
  match g with
  | .leaf _ | .regexp _ | .ref _ | .custom _ =>
    simp only [spelled]
    exact hg
  | .unary op g =>
    simp only [spelled]
    have hspelled := wellFormed_spelled g hg
    cases op with
    | many => exact wellFormed_repetition hspelled
    | many1 => exact wellFormed_repetition1 hspelled
    | _ => exact hspelled
  | .binary op g h =>
    simp only [spelled]
    have hspelled := wellFormed_spelled g hg.1
    have hspelled' := wellFormed_spelled h hg.2
    cases op with
    | sepBy1 => exact wellFormed_separated hspelled hspelled'
    | sepBy => exact ⟨wellFormed_separated hspelled hspelled', trivial⟩
    | _ => exact ⟨hspelled, hspelled'⟩
  | .seq gs | .choice gs =>
    simp only [spelled]
    exact allWellFormed_spelledAll gs hg
  | .recursive name _ g =>
    simp only [spelled]
    have hbody : g.WellFormed (name :: names) := hg
    exact (wellFormed_spelled g hbody :)
  | .given inner gs body =>
    simp only [spelled]
    obtain ⟨hlength, hgs, hbody⟩ := hg
    exact ⟨hlength.trans (length_spelledAll gs).symm, allWellFormed_spelledAll gs hgs,
      wellFormed_spelled body hbody⟩

theorem allWellFormed_spelledAll {names : List String} (gs : List Grammar)
    (hgs : AllWellFormed names gs) : AllWellFormed names (spelledAll gs) := by
  match gs with
  | [] => simp only [spelledAll, AllWellFormed]
  | g :: gs =>
    simp only [spelledAll]
    exact ⟨wellFormed_spelled g hgs.1, allWellFormed_spelledAll gs hgs.2⟩

end

theorem recursions_repetition (g : Grammar) :
    g.repetition.recursions = g.recursions ++ [("rest", false)] := by
  simp [repetition, recursions, recursionsAll]

/-- Each repetition is one recursion more, which nobody starts early. -/
theorem recursions_repetition1 (g : Grammar) :
    g.repetition1.recursions = g.recursions ++ [("rest", false)] := by
  simp [repetition1, recursions, recursionsAll, recursions_repetition]

theorem recursions_separated (g h : Grammar) :
    (g.separated h).recursions = g.recursions ++ h.recursions ++ [("rest", false)] := by
  simp [separated, recursions, recursionsAll, recursions_repetition]

mutual

theorem calm_spelled (g : Grammar) (hg : ∀ r ∈ g.recursions, ¬ r.2) :
    ∀ r ∈ g.spelled.recursions, ¬ r.2 := by
  match g with
  | .leaf _ | .regexp _ | .ref _ | .custom _ =>
    simp only [spelled]
    exact hg
  | .unary op g =>
    simp only [spelled]
    have hspelled := calm_spelled g hg
    cases op with
    | many =>
      rw [UnaryOp.spelled, recursions_repetition]
      exact List.forall_mem_append.mpr ⟨hspelled, by simp⟩
    | many1 =>
      rw [UnaryOp.spelled, recursions_repetition1]
      exact List.forall_mem_append.mpr ⟨hspelled, by simp⟩
    | _ => exact hspelled
  | .binary op g h =>
    simp only [spelled]
    obtain ⟨hg, hh⟩ := List.forall_mem_append.mp hg
    have hboth := List.forall_mem_append.mpr ⟨calm_spelled g hg, calm_spelled h hh⟩
    cases op with
    | sepBy1 =>
      rw [BinaryOp.spelled, recursions_separated]
      exact List.forall_mem_append.mpr ⟨hboth, by simp⟩
    | sepBy =>
      rw [BinaryOp.spelled, recursions, recursions_separated]
      exact List.forall_mem_append.mpr ⟨List.forall_mem_append.mpr ⟨hboth, by simp⟩, nofun⟩
    | _ => exact hboth
  | .seq gs | .choice gs =>
    simp only [spelled]
    exact calm_spelledAll gs hg
  | .recursive name early g =>
    simp only [spelled]
    obtain ⟨hname, hg⟩ := List.forall_mem_cons.mp hg
    exact List.forall_mem_cons.mpr ⟨hname, calm_spelled g hg⟩
  | .given inner gs body =>
    simp only [spelled]
    obtain ⟨hgs, hbody⟩ := List.forall_mem_append.mp hg
    exact List.forall_mem_append.mpr ⟨calm_spelledAll gs hgs, calm_spelled body hbody⟩

theorem calm_spelledAll (gs : List Grammar) (hgs : ∀ r ∈ recursionsAll gs, ¬ r.2) :
    ∀ r ∈ recursionsAll (spelledAll gs), ¬ r.2 := by
  match gs with
  | [] =>
    simp only [spelledAll]
    exact hgs
  | g :: gs =>
    simp only [spelledAll]
    obtain ⟨hg, hgs⟩ := List.forall_mem_append.mp hgs
    exact List.forall_mem_append.mpr ⟨calm_spelled g hg, calm_spelledAll gs hgs⟩

end

/-- What is said of the operators of a grammar is said of those that are left when repetitions
are written as recursions. -/
structure Respelling (OfUnary OfUnary' : UnaryOp → Prop) (OfBinary' : BinaryOp → Prop) : Prop where
  unary : ∀ op, OfUnary op → op ≠ .many → op ≠ .many1 → OfUnary' op
  binary : ∀ op, op ≠ .sepBy → op ≠ .sepBy1 → OfBinary' op
  progress : OfUnary' (.mapOutcome Parser.requireProgress)

namespace Respelling

variable {OfUnary OfUnary' : UnaryOp → Prop} {OfBinary OfBinary' : BinaryOp → Prop}
  {OfStep : (Text → Int → Action Script) → Prop}

theorem repetition (law : Respelling OfUnary OfUnary' OfBinary') (hg : g.Uses OfUnary' OfBinary' OfStep) :
    g.repetition.Uses OfUnary' OfBinary' OfStep :=
  ⟨⟨⟨law.progress, hg⟩, trivial⟩, law.binary .or nofun nofun,
    ⟨law.binary .cons nofun nofun, trivial, trivial⟩, trivial⟩

theorem repetition1 (law : Respelling OfUnary OfUnary' OfBinary') (hg : g.Uses OfUnary' OfBinary' OfStep) :
    g.repetition1.Uses OfUnary' OfBinary' OfStep :=
  ⟨⟨hg, trivial⟩, law.binary .cons nofun nofun, trivial, law.repetition (g := .ref "item") trivial⟩

theorem separated (law : Respelling OfUnary OfUnary' OfBinary') (hg : g.Uses OfUnary' OfBinary' OfStep)
    (hh : h.Uses OfUnary' OfBinary' OfStep) : (g.separated h).Uses OfUnary' OfBinary' OfStep :=
  ⟨⟨hg, hh, trivial⟩, law.binary .cons nofun nofun, trivial,
    law.repetition (g := .binary .keepSecond (.ref "separator") (.ref "item"))
      ⟨law.binary .keepSecond nofun nofun, trivial, trivial⟩⟩

mutual

theorem spelled (law : Respelling OfUnary OfUnary' OfBinary') (g : Grammar)
    (hg : g.Uses OfUnary OfBinary OfStep) : g.spelled.Uses OfUnary' OfBinary' OfStep := by
  match g with
  | .leaf _ | .regexp _ | .ref _ | .custom _ =>
    simp only [Grammar.spelled]
    exact hg
  | .unary op g =>
    simp only [Grammar.spelled]
    have hspelled := law.spelled g hg.2
    by_cases hmany : op = .many
    · exact hmany ▸ law.repetition hspelled
    by_cases hmany1 : op = .many1
    · exact hmany1 ▸ law.repetition1 hspelled
    rw [op.spelled_of_ne _ hmany hmany1]
    exact ⟨law.unary op hg.1 hmany hmany1, hspelled⟩
  | .binary op g h =>
    simp only [Grammar.spelled]
    have hspelled := law.spelled g hg.2.1
    have hspelled' := law.spelled h hg.2.2
    by_cases hsepBy : op = .sepBy
    · exact hsepBy ▸ ⟨law.binary .or nofun nofun, law.separated hspelled hspelled', trivial⟩
    by_cases hsepBy1 : op = .sepBy1
    · exact hsepBy1 ▸ law.separated hspelled hspelled'
    rw [op.spelled_of_ne _ _ hsepBy hsepBy1]
    exact ⟨law.binary op hsepBy hsepBy1, hspelled, hspelled'⟩
  | .seq gs | .choice gs =>
    simp only [Grammar.spelled]
    exact law.spelledAll gs hg
  | .recursive _ _ g =>
    simp only [Grammar.spelled]
    exact law.spelled g hg
  | .given _ gs body =>
    simp only [Grammar.spelled]
    exact ⟨law.spelledAll gs hg.1, law.spelled body hg.2⟩

theorem spelledAll (law : Respelling OfUnary OfUnary' OfBinary') (gs : List Grammar)
    (hgs : AllUse OfUnary OfBinary OfStep gs) : AllUse OfUnary' OfBinary' OfStep (spelledAll gs) := by
  match gs with
  | [] => simp only [Grammar.spelledAll, AllUse]
  | g :: gs =>
    simp only [Grammar.spelledAll]
    exact ⟨law.spelled g hgs.1, law.spelledAll gs hgs.2⟩

end

end Respelling

theorem blameless_spelled (hg : g.Blameless) : g.spelled.Blameless :=
  Respelling.spelled ⟨fun _ hop _ _ => hop, fun _ _ _ => trivial, Parser.blameless_requireProgress⟩ g hg

/-- No operator in the grammar repeats anything. -/
def Unrepeated : Grammar → Prop :=
  Uses (fun op => op ≠ .many ∧ op ≠ .many1) (fun op => op ≠ .sepBy ∧ op ≠ .sepBy1) fun _ => True

theorem unrepeated_spelled (g : Grammar) : g.spelled.Unrepeated :=
  Respelling.spelled ⟨fun _ _ hmany hmany1 => ⟨hmany, hmany1⟩, fun _ hsepBy hsepBy1 => ⟨hsepBy, hsepBy1⟩,
    ⟨nofun, nofun⟩⟩ g g.uses_any

end Grammar

/-- No part of the parser is a repetition. -/
def Parser.Unrepeated : Parser → Prop :=
  Everywhere fun
    | many _ => False
    | _ => True

theorem Parser.fitting_unrepeated :
    Fitting (fun op => op ≠ .many ∧ op ≠ .many1) (fun op => op ≠ .sepBy ∧ op ≠ .sepBy1) (fun _ => True)
      fun _ p => p.Unrepeated where
  mono _ := id
  leaf _ _ := trivial
  ref _ := trivial
  custom _ _ _ := trivial
  unary {_ op p} hop hp := by
    cases op with
    | many => exact (hop.1 rfl).elim
    | many1 => exact (hop.2 rfl).elim
    | toEnd => exact ⟨trivial, trivial, hp, trivial⟩
    | _ => exact ⟨trivial, hp⟩
  binary {_ op p q} hop hp hq := by
    cases op with
    | sepBy => exact (hop.1 rfl).elim
    | sepBy1 => exact (hop.2 rfl).elim
    | pair | or => exact ⟨trivial, hp, hq⟩
    | keepSecond | keepFirst | cons | snoc => exact ⟨trivial, trivial, hp, hq⟩
    | notFollowedBy | followedBy => exact ⟨trivial, trivial, hp, trivial, hq⟩
  usesSnoc := ⟨nofun, nofun⟩
  usesOr := ⟨nofun, nofun⟩

end Backtrack
