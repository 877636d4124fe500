-- The law of building: to build the parser of a written grammar only adds to the table.
-- The handles that were given out before keep their bodies, and the new bodies and the
-- parser itself refer to nothing that was not given out.
import Backtrack.Grammar
import Backtrack.Proofs.Growth

namespace Backtrack

/-! ## Tables -/

namespace Rules

variable {rules : Rules}

theorem nextHandle_reserve (rules : Rules) : rules.reserve.nextHandle = rules.nextHandle + 1 := by
  simp [nextHandle, reserve]

theorem nextHandle_lt_reserve (rules : Rules) : rules.nextHandle < rules.reserve.nextHandle := by
  rw [nextHandle_reserve]
  exact Nat.lt_succ_self _

theorem nextHandle_define (rules : Rules) (handle : Handle) (body : Parser) :
    (rules.define handle body).nextHandle = rules.nextHandle := by
  simp [nextHandle, define]

/-- Each body of the table is the one that was written down last, or was there before. -/
theorem of_body?_define {handle other : Handle} {body p : Parser}
    (h : (rules.define handle body).body? other = some p) : p = body ∨ rules.body? other = some p := by
  by_cases hsame : handle = other
  · subst hsame
    by_cases hin : handle < rules.nextHandle
    · rw [body?_define_self hin] at h
      cases h
      exact Or.inl rfl
    · rw [body?_eq_none] at h
      · cases h
      · rw [nextHandle_define]
        exact Nat.le_of_not_lt hin
  · rw [body?_define_of_ne hsame] at h
    exact Or.inr h

theorem All.reserve {P : Parser → Prop} (h : rules.All P) : rules.reserve.All P := by
  intro handle p hp
  rw [body?_reserve] at hp
  exact h handle p hp

theorem All.define {P : Parser → Prop} (h : rules.All P) {handle : Handle} {body : Parser}
    (hbody : P body) : (rules.define handle body).All P := by
  intro other p hp
  rcases of_body?_define hp with rfl | hp
  · exact hbody
  · exact h other p hp

theorem grows_reserve (rules : Rules) : rules.Grows rules.reserve :=
  ⟨Nat.le_of_lt rules.nextHandle_lt_reserve, fun handle _ => body?_reserve rules handle⟩

/-- To write down the body of a new handle changes nothing about the old ones. -/
theorem Grows.define {rules' : Rules} (h : rules.Grows rules') {handle : Handle}
    (hnew : rules.nextHandle ≤ handle) (body : Parser) : rules.Grows (rules'.define handle body) := by
  refine ⟨?_, fun other hother => ?_⟩
  · rw [nextHandle_define]
    exact h.nextHandle_le
  · have hne : handle ≠ other := Nat.ne_of_gt (Nat.lt_of_lt_of_le hother hnew)
    rw [body?_define_of_ne hne, h.body?_eq other hother]

/-- The second table has grown out of the first, and every body in it fits a table with so many
handles. -/
structure Leads (Fits : Handle → Parser → Prop) (rules rules' : Rules) : Prop where
  grows : rules.Grows rules'
  fits : rules'.All (Fits rules'.nextHandle)

namespace Leads

variable {Fits : Handle → Parser → Prop} {rules' rules'' : Rules}

theorem refl (h : rules.All (Fits rules.nextHandle)) : rules.Leads Fits rules := ⟨.refl rules, h⟩

theorem trans (h : rules.Leads Fits rules') (h' : rules'.Leads Fits rules'') :
    rules.Leads Fits rules'' := ⟨h.grows.trans h'.grows, h'.fits⟩

theorem define (h : rules.Leads Fits rules') {handle : Handle} {body : Parser}
    (hnew : rules.nextHandle ≤ handle) (hbody : Fits rules'.nextHandle body) :
    rules.Leads Fits (rules'.define handle body) := by
  refine ⟨h.grows.define hnew body, ?_⟩
  rw [nextHandle_define]
  exact h.fits.define hbody

end Leads

end Rules

/-! ## Steps of building -/

namespace Build

variable {α β : Type} {P : α → Rules → Prop} {Q : β → Rules → Prop} {rules : Rules}

/-- If the step gives something, this and the table that is left are as said. -/
def Ensures (x : Build α) (rules : Rules) (P : α → Rules → Prop) : Prop :=
  Search.Ensures (x.run rules) fun y => P y.1 y.2

theorem ensures_pure {a : α} (h : P a rules) : Ensures (pure a) rules P :=
  Search.ensures_pure (a := (a, rules)) h

theorem Ensures.bind {x : Build α} {f : α → Build β} (hx : x.Ensures rules P)
    (hf : ∀ a rules', P a rules' → (f a).Ensures rules' Q) : (x >>= f).Ensures rules Q :=
  Search.Ensures.bind hx fun y hy => hf y.1 y.2 hy

theorem Ensures.imp {P' : α → Rules → Prop} {x : Build α} (hx : x.Ensures rules P)
    (h : ∀ a rules', P a rules' → P' a rules') : x.Ensures rules P' :=
  fun events y hy => h y.1 y.2 (hx events y hy)

/-- What is no step of building leaves the table as it was. -/
theorem ensures_lift {P : α → Prop} {x : Search α} (hx : x.Ensures P) :
    Ensures (StateT.lift x) rules fun a rules' => rules' = rules ∧ P a :=
  hx.bind fun _ ha => Search.ensures_pure ⟨rfl, ha⟩

theorem ensures_reserve : Ensures reserve rules fun handle rules' =>
    handle = rules.nextHandle ∧ rules' = rules.reserve := by
  intro events y h
  cases h
  exact ⟨rfl, rfl⟩

theorem ensures_define (handle : Handle) (body : Parser) :
    Ensures (define handle body) rules fun _ rules' => rules' = rules.define handle body := by
  intro events y h
  cases h
  rfl

theorem ensures_get : Ensures get rules fun _ rules' => rules' = rules := Search.ensures_pure rfl

theorem Ensures.discard {x : Build α} (hx : x.Ensures rules P) :
    Ensures (discard x) rules fun _ rules' => ∃ a, P a rules' :=
  Search.Ensures.bind hx fun y hy => Search.ensures_pure ⟨y.1, hy⟩

end Build

/-! ## What grammars are made of -/

namespace Grammar

variable (OfUnary : UnaryOp → Prop) (OfBinary : BinaryOp → Prop)
  (OfStep : (Text → Int → Action Script) → Prop)

mutual

/-- The operators in the grammar and the steps of the user's are as said. -/
def Uses : Grammar → Prop
  | leaf _ | regexp _ | ref _ => True
  | unary op g => OfUnary op ∧ g.Uses
  | binary op g h => OfBinary op ∧ g.Uses ∧ h.Uses
  | seq gs | choice gs => AllUse gs
  | recursive _ _ g => g.Uses
  | given _ gs body => AllUse gs ∧ body.Uses
  | custom step => OfStep step

/-- Those in the grammars are as said. -/
def AllUse : List Grammar → Prop
  | [] => True
  | g :: gs => g.Uses ∧ AllUse gs

end

mutual

theorem uses_any (g : Grammar) : g.Uses (fun _ => True) (fun _ => True) fun _ => True := by
  match g with
  | .leaf _ | .regexp _ | .ref _ | .custom _ => trivial
  | .unary _ g => exact ⟨trivial, uses_any g⟩
  | .binary _ g h => exact ⟨trivial, uses_any g, uses_any h⟩
  | .seq gs | .choice gs => exact allUse_any gs
  | .recursive _ _ g => exact uses_any g
  | .given _ gs body => exact ⟨allUse_any gs, uses_any body⟩

theorem allUse_any (gs : List Grammar) : AllUse (fun _ => True) (fun _ => True) (fun _ => True) gs := by
  match gs with
  | [] => trivial
  | g :: gs => exact ⟨uses_any g, allUse_any gs⟩

end

end Grammar

/-! ## Parsers that fit a table -/

/-- What is said of parsers and the number of handles is kept by whatever is built: by each
operator that is as said, among them those that any number of parsers are put together with,
and when more handles are given out. -/
structure Parser.Fitting (OfUnary : UnaryOp → Prop) (OfBinary : BinaryOp → Prop)
    (OfStep : (Text → Int → Action Script) → Prop) (Fits : Handle → Parser → Prop) : Prop where
  mono {n m : Handle} {p : Parser} : n ≤ m → Fits n p → Fits m p
  leaf (n : Handle) (l : Leaf) : Fits n (.leaf l)
  ref {n handle : Handle} : handle < n → Fits n (.ref handle)
  custom (n : Handle) {step : Text → Int → Action Script} : OfStep step → Fits n (.custom step)
  unary {n : Handle} {op : UnaryOp} {p : Parser} : OfUnary op → Fits n p → Fits n (op.apply p)
  binary {n : Handle} {op : BinaryOp} {p q : Parser} :
    OfBinary op → Fits n p → Fits n q → Fits n (op.apply p q)
  usesSnoc : OfBinary .snoc
  usesOr : OfBinary .or

namespace Parser.Fitting

variable {OfUnary : UnaryOp → Prop} {OfBinary : BinaryOp → Prop}
  {OfStep : (Text → Int → Action Script) → Prop} {Fits : Handle → Parser → Prop}

theorem seq (law : Fitting OfUnary OfBinary OfStep Fits) {n : Handle} {ps : List Parser}
    (hps : ∀ p ∈ ps, Fits n p) : Fits n (seq ps) :=
  List.foldlRecOn (motive := Fits n) ps snoc (law.leaf n _) fun _ hp q hq =>
    law.binary law.usesSnoc hp (hps q hq)

theorem choice (law : Fitting OfUnary OfBinary OfStep Fits) {n : Handle} {ps : List Parser}
    (hps : ∀ p ∈ ps, Fits n p) : Fits n (choice ps) := by
  cases ps with
  | nil => exact law.leaf n _
  | cons p ps =>
    obtain ⟨hp, hrest⟩ := List.forall_mem_cons.mp hps
    exact List.foldlRecOn (motive := Fits n) ps or hp fun _ hp q hq =>
      law.binary law.usesOr hp (hrest q hq)

theorem reserve (law : Fitting OfUnary OfBinary OfStep Fits) {rules : Rules}
    (h : rules.All (Fits rules.nextHandle)) : rules.Leads Fits rules.reserve :=
  ⟨rules.grows_reserve, Rules.All.reserve fun handle body hb =>
    law.mono rules.grows_reserve.nextHandle_le (h handle body hb)⟩

end Parser.Fitting

/-! ## Scopes -/

/-- The parsers that have names fit a table with so many handles. -/
def Scope.Fit (Fits : Handle → Parser → Prop) (n : Handle) (scope : Scope) : Prop :=
  ∀ x ∈ scope, Fits n x.2

namespace Scope.Fit

variable {OfUnary : UnaryOp → Prop} {OfBinary : BinaryOp → Prop}
  {OfStep : (Text → Int → Action Script) → Prop} {Fits : Handle → Parser → Prop} {n : Handle}
  {scope : Scope} {name : String} {p : Parser}

theorem grown (h : scope.Fit Fits n) (law : Parser.Fitting OfUnary OfBinary OfStep Fits)
    {m : Handle} (hnm : n ≤ m) : scope.Fit Fits m := fun x hx => law.mono hnm (h x hx)

theorem cons (h : scope.Fit Fits n) (hp : Fits n p) : Scope.Fit Fits n ((name, p) :: scope) :=
  List.forall_mem_cons.mpr ⟨hp, h⟩

theorem given (h : scope.Fit Fits n) {ps : List Parser} (hps : ∀ p ∈ ps, Fits n p)
    (names : List String) : Scope.Fit Fits n (names.zip ps ++ scope) := by
  intro x hx
  rcases List.mem_append.mp hx with hx | hx
  · exact hps x.2 (List.of_mem_zip hx).2
  · exact h x hx

theorem lookup (h : scope.Fit Fits n) (hp : scope.lookup name = some p) : Fits n p := by
  obtain ⟨before, after, rfl, _⟩ := List.lookup_eq_some_iff.mp hp
  exact h (name, p) (by simp)

end Scope.Fit

/-! ## The law of building -/

namespace Grammar

variable {OfUnary : UnaryOp → Prop} {OfBinary : BinaryOp → Prop}
  {OfStep : (Text → Int → Action Script) → Prop} {Fits : Handle → Parser → Prop}

/-- The body of a handle that was just given out is built and written down. -/
theorem defined_fits (law : Parser.Fitting OfUnary OfBinary OfStep Fits) {rules : Rules}
    (hrules : rules.All (Fits rules.nextHandle)) {x : Build Parser}
    (hx : x.Ensures rules.reserve fun p rules' =>
      rules.reserve.Leads Fits rules' ∧ Fits rules'.nextHandle p) :
    Build.Ensures (do
      let body ← x
      Build.define rules.nextHandle body
      return .ref rules.nextHandle : Build Parser) rules.reserve fun p rules' =>
        rules.Leads Fits rules' ∧ Fits rules'.nextHandle p := by
  refine hx.bind fun body rules' hbody => ?_
  refine (Build.ensures_define rules.nextHandle body).bind fun _ rules'' h => ?_
  subst h
  have hleads := (law.reserve hrules).trans hbody.1
  refine Build.ensures_pure ⟨hleads.define (Nat.le_refl _) hbody.2, law.ref ?_⟩
  rw [Rules.nextHandle_define]
  exact Nat.lt_of_lt_of_le rules.nextHandle_lt_reserve hbody.1.grows.nextHandle_le

mutual

/-- What is built of parsers that fit, fits, and so do all bodies that are written down. -/
theorem build_fits (law : Parser.Fitting OfUnary OfBinary OfStep Fits) (fuel : Nat)
    {scope : Scope} {rules : Rules} (hrules : rules.All (Fits rules.nextHandle))
    (hscope : scope.Fit Fits rules.nextHandle) (g : Grammar) (hg : g.Uses OfUnary OfBinary OfStep) :
    (g.build fuel scope).Ensures rules fun p rules' =>
      rules.Leads Fits rules' ∧ Fits rules'.nextHandle p := by
  match g with
  | .leaf l =>
    rw [build]
    exact Build.ensures_pure ⟨.refl hrules, law.leaf _ l⟩
  | .regexp w =>
    rw [build]
    refine (Build.ensures_lift (Search.sameAs_action _).ensures).bind fun l rules' hl => ?_
    obtain ⟨rfl, -⟩ := hl
    exact Build.ensures_pure ⟨.refl hrules, law.leaf _ l⟩
  | .unary op g =>
    rw [build]
    refine (build_fits law fuel hrules hscope g hg.2).bind fun p rules' hp => ?_
    exact Build.ensures_pure ⟨hp.1, law.unary hg.1 hp.2⟩
  | .binary op g h =>
    rw [build]
    refine (build_fits law fuel hrules hscope g hg.2.1).bind fun p rules' hp => ?_
    have hscope' := hscope.grown law hp.1.grows.nextHandle_le
    refine (build_fits law fuel hp.1.fits hscope' h hg.2.2).bind fun q rules'' hq => ?_
    have hp' := law.mono hq.1.grows.nextHandle_le hp.2
    exact Build.ensures_pure ⟨hp.1.trans hq.1, law.binary hg.1 hp' hq.2⟩
  | .seq gs =>
    rw [build]
    refine (buildAll_fits law fuel hrules hscope gs hg).bind fun ps rules' hps => ?_
    exact Build.ensures_pure ⟨hps.1, law.seq hps.2⟩
  | .choice gs =>
    rw [build]
    refine (buildAll_fits law fuel hrules hscope gs hg).bind fun ps rules' hps => ?_
    exact Build.ensures_pure ⟨hps.1, law.choice hps.2⟩
  | .recursive name early g =>
    rw [build]
    refine Build.ensures_reserve.bind fun handle rules' h => ?_
    obtain ⟨rfl, rfl⟩ := h
    refine (Build.ensures_lift (Search.sameAs_action _).ensures).bind fun _ rules' h => ?_
    obtain ⟨rfl, -⟩ := h
    have hreserved := law.reserve hrules
    have hinner : Scope.Fit Fits rules.reserve.nextHandle ((name, .ref rules.nextHandle) :: scope) :=
      (hscope.grown law hreserved.grows.nextHandle_le).cons (law.ref rules.nextHandle_lt_reserve)
    have hrest := defined_fits law hrules (build_fits law fuel hreserved.fits hinner g hg)
    cases early with
    | none => exact hrest
    | some text =>
      -- Whatever the early start answers, it leaves the table as it is.
      refine Build.ensures_get.bind fun r rules' h => ?_
      subst h
      refine (Build.ensures_lift (Search.sameAs_action _).ensures).discard.bind fun _ rules' h => ?_
      obtain ⟨_, rfl, -⟩ := h
      exact hrest
  | .ref name =>
    rw [build]
    intro events y h
    cases hp : scope.lookup name with
    | none =>
      rw [hp] at h
      cases h
    | some p =>
      rw [hp] at h
      cases h
      exact ⟨.refl hrules, hscope.lookup hp⟩
  | .given names gs body =>
    rw [build]
    refine (buildAll_fits law fuel hrules hscope gs hg.1).bind fun ps rules' hps => ?_
    have hscope' := hscope.grown law hps.1.grows.nextHandle_le
    refine (build_fits law fuel hps.1.fits (hscope'.given hps.2 names) body hg.2).imp ?_
    exact fun p rules'' hp => ⟨hps.1.trans hp.1, hp.2⟩
  | .custom step =>
    rw [build]
    exact Build.ensures_pure ⟨.refl hrules, law.custom _ hg⟩

theorem buildAll_fits (law : Parser.Fitting OfUnary OfBinary OfStep Fits) (fuel : Nat)
    {scope : Scope} {rules : Rules} (hrules : rules.All (Fits rules.nextHandle))
    (hscope : scope.Fit Fits rules.nextHandle) (gs : List Grammar)
    (hgs : AllUse OfUnary OfBinary OfStep gs) :
    (buildAll fuel scope gs).Ensures rules fun ps rules' =>
      rules.Leads Fits rules' ∧ ∀ p ∈ ps, Fits rules'.nextHandle p := by
  match gs with
  | [] =>
    rw [buildAll]
    exact Build.ensures_pure ⟨.refl hrules, nofun⟩
  | g :: gs =>
    rw [buildAll]
    refine (build_fits law fuel hrules hscope g hgs.1).bind fun p rules' hp => ?_
    have hscope' := hscope.grown law hp.1.grows.nextHandle_le
    refine (buildAll_fits law fuel hp.1.fits hscope' gs hgs.2).bind fun ps rules'' hps => ?_
    refine Build.ensures_pure ⟨hp.1.trans hps.1, List.forall_mem_cons.mpr ⟨?_, hps.2⟩⟩
    exact law.mono hps.1.grows.nextHandle_le hp.2

end

theorem fitting_any :
    Parser.Fitting (fun _ => True) (fun _ => True) (fun _ => True) fun _ _ => True where
  mono _ := id
  leaf _ _ := trivial
  ref _ := trivial
  custom _ _ _ := trivial
  unary _ := id
  binary _ _ := id
  usesSnoc := trivial
  usesOr := trivial

/-- Building only adds to the table, whatever the names stand for. -/
theorem build_grows (fuel : Nat) (scope : Scope) (rules : Rules) (g : Grammar) :
    (g.build fuel scope).Ensures rules fun _ rules' => rules.Grows rules' :=
  (build_fits fitting_any fuel (fun _ _ _ => trivial) (fun _ _ => trivial) g g.uses_any).imp
    fun _ _ h => h.1.grows

end Grammar

/-! ## References to handles that were given out -/

namespace Parser

variable {n : Handle} {p q : Parser}

@[simp] theorem refersBelow_leaf (l : Leaf) : (leaf l).RefersBelow n := trivial

@[simp] theorem refersBelow_pair : (pair p q).RefersBelow n ↔ p.RefersBelow n ∧ q.RefersBelow n := by
  simp [RefersBelow, Everywhere]

@[simp] theorem refersBelow_or : (or p q).RefersBelow n ↔ p.RefersBelow n ∧ q.RefersBelow n := by
  simp [RefersBelow, Everywhere]

@[simp] theorem refersBelow_mapOutcome {change : Outcome → Int → Action Outcome} :
    (mapOutcome change p).RefersBelow n ↔ p.RefersBelow n := by simp [RefersBelow, Everywhere]

@[simp] theorem refersBelow_not : p.not.RefersBelow n ↔ p.RefersBelow n := by
  simp [RefersBelow, Everywhere]

@[simp] theorem refersBelow_many : p.many.RefersBelow n ↔ p.RefersBelow n := by
  simp [RefersBelow, Everywhere]

@[simp] theorem refersBelow_ref {handle : Handle} : (ref handle).RefersBelow n ↔ handle < n := Iff.rfl

theorem refersBelow_unary (op : UnaryOp) (hp : p.RefersBelow n) : (op.apply p).RefersBelow n := by
  cases op <;> simp [UnaryOp.apply, toEnd, keepFirst, endOfText, many1, cons, peek, as, describe, map, hp]

theorem refersBelow_binary (op : BinaryOp) (hp : p.RefersBelow n) (hq : q.RefersBelow n) :
    (op.apply p q).RefersBelow n := by
  cases op <;> simp [BinaryOp.apply, keepSecond, keepFirst, cons, snoc, sepBy, sepBy1, succeed,
    notFollowedBy, followedBy, peek, map, hp, hq]

theorem fitting_refersBelow :
    Fitting (fun _ => True) (fun _ => True) (fun _ => True) RefersBelow where
  mono h hp := hp.mono h
  leaf _ := refersBelow_leaf
  ref := id
  custom _ _ _ := trivial
  unary _ := refersBelow_unary _
  binary _ := refersBelow_binary _
  usesSnoc := trivial
  usesOr := trivial

end Parser

/-- The parsers that have names refer to the first so many handles only. -/
def Scope.RefersBelow (n : Handle) (scope : Scope) : Prop := ∀ x ∈ scope, x.2.RefersBelow n

namespace Scope.RefersBelow

variable {n : Handle} {scope : Scope} {name : String} {p : Parser}

theorem mono (h : scope.RefersBelow n) {m : Handle} (hnm : n ≤ m) : scope.RefersBelow m :=
  fun x hx => (h x hx).mono hnm

theorem cons (h : scope.RefersBelow n) (hp : p.RefersBelow n) :
    Scope.RefersBelow n ((name, p) :: scope) := Fit.cons h hp

theorem lookup (h : scope.RefersBelow n) (hp : scope.lookup name = some p) : p.RefersBelow n :=
  Fit.lookup h hp

end Scope.RefersBelow

theorem Grammar.build_builds (fuel : Nat) {scope : Scope} {rules : Rules} (hrules : rules.Closed)
    (hscope : scope.RefersBelow rules.nextHandle) (g : Grammar) :
    (g.build fuel scope).Ensures rules fun p rules' =>
      rules.Leads Parser.RefersBelow rules' ∧ p.RefersBelow rules'.nextHandle :=
  build_fits Parser.fitting_refersBelow fuel hrules hscope g g.uses_any

end Backtrack
