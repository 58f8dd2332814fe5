import ShaderExpr.Proofs.Integers
import ShaderExpr.Proofs.Shorthand

/-!
# Integer arithmetic of expressions

Expressions of integers are evaluated exactly, modulo `2 ^ 32` (`Session.Steady.integer_laws`).  A `Term` tells how an
expression was made of operands by products, sums, differences and complements to one.  Its integer at a place is that
of the term, modulo `2 ^ 32` (`Term.Made.exists_contributes`), by induction on how it was made.  So expressions of terms
that are equal for all integers have equal values (`Term.Made.exists_evaluates`), and the laws of rings hold for them.
-/

namespace ShaderExpr

variable {n : Nat}

namespace Operand

variable {s : Session n} {b : Bindings} {kind : Kind} {y : Operand n} {v w : Value}

/-- The value that an operand contributes where a kind is asked for, if there is one. -/
def value? (s : Session n) (b : Bindings) (kind : Kind) : Operand n → Option Value
  | node x => ((s.builder x.graph).graph.eval b x.handle).toOption
  | literal x => x.unify? kind

theorem value?_eq_some_iff : y.value? s b kind = some w ↔ y.Contributes s b kind w := by
  cases y with
  | node x =>
    show Except.toOption _ = some w ↔ s.Evaluates b x w
    rw [Session.evaluates_iff]
    cases (s.builder x.graph).graph.eval b x.handle with
    | error failure => exact iff_of_false nofun nofun
    | ok v => simp [Except.toOption]
  | literal x => exact Iff.rfl

theorem Contributes.unique (h : y.Contributes s b kind v) (h' : y.Contributes s b kind w) : v = w :=
  Option.some.inj ((value?_eq_some_iff.2 h).symm.trans (value?_eq_some_iff.2 h'))

/-- The integer of an operand at a place; zero if it has none. -/
def integerAt (s : Session n) (b : Bindings) (kind : Kind) (i : Nat) (y : Operand n) : Int :=
  (((y.value? s b kind).bind fun v => v.at? i).map Scalar.integer).getD 0

theorem integerAt_eq (h : y.Contributes s b kind w) {i : Nat} {c : Scalar} (hc : w.at? i = some c) :
    y.integerAt s b kind i = c.integer := by
  unfold integerAt
  rw [value?_eq_some_iff.2 h, Option.bind_some, hc]
  rfl

theorem contributes_iff {g : Fin n} (hy : AllOf g [y]) :
    y.Contributes s b kind w ↔ y.outcome? (s.builder g).graph b kind = some (.ok w) := by
  cases y with
  | node x =>
    have hx : x.graph = g := hy x (List.mem_singleton_self _)
    rw [← hx]
    exact Session.evaluates_iff.trans Option.some_inj.symm
  | literal x =>
    show x.unify? kind = some w ↔ (x.unify? kind).map Except.ok = some (.ok w)
    cases x.unify? kind <;> simp

end Operand

namespace Session

variable {g : Fin n} {s : Session n} {held : List (Reply n)} {events : List (Event n)} {op : BinaryOp}
  {x p : Node n} {y : Operand n} {b : Bindings} {v w z : Value}

namespace Steady

/-- An operator is evaluated from its operands. -/
theorem evaluates_binary_iff (hs : s.Steady g held events) (hx : x.graph = g)
    (hp : ⟨.binary op x y, .ok (.node p)⟩ ∈ events) :
    s.Evaluates b p z ↔
      ∃ v w, s.Evaluates b x v ∧ y.Contributes s b x.ty.kind w ∧ Value.binary op p.ty v w = .ok z := by
  obtain ⟨howner, hpgraph, _⟩ := hs.binary_of_event hp
  obtain ⟨right, hright, heval⟩ := hs.eval_binary hx hp b
  rw [hx] at howner
  simp only [evaluates_iff, hpgraph, hx, Operand.contributes_iff howner, hright, heval]
  constructor
  · intro h
    obtain ⟨v, hv, h⟩ := exists_of_bind_ok h
    obtain ⟨w, hw, h⟩ := exists_of_bind_ok h
    exact ⟨v, w, hv, congrArg some hw, h⟩
  · rintro ⟨v, w, hv, hw, h⟩
    rw [hv, Option.some.inj hw]
    exact h

/-- What the operands of an operator on integers are evaluated to can be combined place by place. -/
theorem pairs_of_event (hs : s.Steady g held events) (hx : x.graph = g) (hkind : x.ty.kind.IsInteger)
    (hp : ⟨.binary op x y, .ok (.node p)⟩ ∈ events) (hv : s.Evaluates b x v) (hw : y.Contributes s b x.ty.kind w) :
    v.ty = x.ty ∧ Value.Pairs v w := by
  obtain ⟨howner, _, haccepts, _⟩ := hs.binary_of_event hp
  have hgiven := hs.given hp
  have hmatrix := ValueType.isMatrix_of_isInteger hkind
  have hvty : v.ty = x.ty := hs.ty_of_evaluates hx (hgiven x List.mem_cons_self) hv
  refine ⟨hvty, hvty ▸ hmatrix, ?_⟩
  rw [hvty]
  cases y with
  | node z =>
    have hz : z.graph = g := (howner z (List.mem_singleton_self _)).trans hx
    have hwty : w.ty = z.ty :=
      hs.ty_of_evaluates hz (hgiven z (List.mem_cons_of_mem _ (List.mem_singleton_self z))) hw
    rw [hwty]
    rcases haccepts.right_cases hmatrix with h | h | h
    · exact .inl (OperandType.typed.inj h)
    · exact .inr (OperandType.typed.inj h)
    · exact absurd h nofun
  | literal z => exact .inr (z.ty_of_unify? hw)

theorem evaluates_iff_of_pairs (hs : s.Steady g held events) (hx : x.graph = g) (hkind : x.ty.kind.IsInteger)
    (hp : ⟨.binary op x y, .ok (.node p)⟩ ∈ events) (hv : s.Evaluates b x v) (hw : y.Contributes s b x.ty.kind w) :
    s.Evaluates b p z ↔ Value.componentwise op p.ty v w = .ok z := by
  obtain ⟨hvty, hpairs⟩ := hs.pairs_of_event hx hkind hp hv hw
  rw [hs.evaluates_binary_iff hx hp, ← Value.binary_of_not_matrix hpairs.not_matrix]
  constructor
  · rintro ⟨v', w', hv', hw', h⟩
    rwa [hv'.unique hv, hw'.unique hw] at h
  · exact fun h => ⟨v, w, hv, hw, h⟩

/-- Except for comparisons, operators on integers have the type of their left operand. -/
theorem result_of_event (hs : s.Steady g held events) (hx : x.graph = g) (hkind : x.ty.kind.IsInteger)
    (hop : op ≠ .lessThan) (hp : ⟨.binary op x y, .ok (.node p)⟩ ∈ events) : p.graph = g ∧ p.ty = x.ty := by
  obtain ⟨_, hpgraph, haccepts, _⟩ := hs.binary_of_event hp
  exact ⟨hpgraph.trans hx, haccepts.result_eq hop (ValueType.isMatrix_of_isInteger hkind)⟩

/-- Products, sums and differences have values, which are exact modulo `2 ^ 32` at each place. -/
theorem exists_evaluates_ring (hs : s.Steady g held events) (hx : x.graph = g) (hop : op.IsRing)
    (hkind : x.ty.kind.IsInteger) (hp : ⟨.binary op x y, .ok (.node p)⟩ ∈ events) (hv : s.Evaluates b x v)
    (hw : y.Contributes s b x.ty.kind w) :
    ∃ z, s.Evaluates b p z ∧ z.ty = x.ty ∧ ∀ i e, z.at? i = some e ↔
      ∃ c d, v.at? i = some c ∧ w.at? i = some d ∧ e.kind = x.ty.kind ∧
        e.integer ≡ op.exact c.integer d.integer [ZMOD 2 ^ 32] := by
  obtain ⟨hvty, hpairs⟩ := hs.pairs_of_event hx hkind hp hv hw
  have hpty := (hs.result_of_event hx hkind hop.ne_lessThan hp).2
  rw [← hvty] at hkind hpty ⊢
  obtain ⟨z, hz, hexact⟩ := Value.exists_componentwise_ring hpairs hkind hop
  rw [← hpty] at hz
  exact ⟨z, (hs.evaluates_iff_of_pairs hx (hvty ▸ hkind) hp hv hw).2 hz, hexact⟩

/-- Quotients have values if all of them exist, and then these are exact at each place. -/
theorem evaluates_div (hs : s.Steady g held events) (hx : x.graph = g) (hkind : x.ty.kind.IsInteger)
    (hp : ⟨.binary .div x y, .ok (.node p)⟩ ∈ events) (hv : s.Evaluates b x v)
    (hw : y.Contributes s b x.ty.kind w) :
    ((∃ z, s.Evaluates b p z) ↔ ∀ i c d, v.at? i = some c → w.at? i = some d → c.Divides d) ∧
      ∀ z, s.Evaluates b p z → z.ty = x.ty ∧ ∀ i e, z.at? i = some e ↔
        ∃ c d, v.at? i = some c ∧ w.at? i = some d ∧ e.kind = x.ty.kind ∧
          e.integer = c.integer.tdiv d.integer := by
  obtain ⟨hvty, hpairs⟩ := hs.pairs_of_event hx hkind hp hv hw
  have hdiv : BinaryOp.div ≠ .lessThan := nofun
  have hpty := (hs.result_of_event hx hkind hdiv hp).2
  simp only [hs.evaluates_iff_of_pairs hx hkind hp hv hw, hpty]
  rw [← hvty] at hkind ⊢
  exact ⟨Value.exists_componentwise_div_iff hpairs hkind, fun z hz => Value.at?_componentwise_div hpairs hkind hz⟩

/-- Comparisons are those of the integers. -/
theorem evaluates_lessThan (hs : s.Steady g held events) (hx : x.graph = g) (hkind : x.ty.kind.IsInteger)
    (hp : ⟨.binary .lessThan x y, .ok (.node p)⟩ ∈ events) (hv : s.Evaluates b x v)
    (hw : y.Contributes s b x.ty.kind w) :
    ∃ c d, v.at? 0 = some c ∧ w.at? 0 = some d ∧ s.Evaluates b p (.ofBool (c.integer < d.integer)) := by
  obtain ⟨hvty, hpairs⟩ := hs.pairs_of_event hx hkind hp hv hw
  obtain ⟨hscalar, hpty⟩ := (hs.binary_of_event hp).2.2.1.of_lessThan
  simp only [hs.evaluates_iff_of_pairs hx hkind hp hv hw, hpty]
  rw [← hvty] at hkind hscalar
  exact Value.componentwise_lessThan hpairs hkind hscalar

/-- A complement to one has a value if its operand has one, and it is exact modulo `2 ^ 32`. -/
theorem exists_evaluates_oneMinus (hs : s.Steady g held events) (hx : x.graph = g) (hkind : x.ty.kind.IsInteger)
    (hp : ⟨.oneMinus x, .ok (.node p)⟩ ∈ events) (hv : s.Evaluates b x v) :
    ∃ z, s.Evaluates b p z ∧ ∀ i e, z.at? i = some e →
      ∃ d, v.at? i = some d ∧ e.integer ≡ 1 - d.integer [ZMOD 2 ^ 32] := by
  obtain ⟨hpgraph, hscalar, _⟩ := hs.oneMinus_of_event hp
  have hvty := hs.ty_of_evaluates hx (hs.given hp x (List.mem_singleton_self x)) hv
  rw [evaluates_iff, hx] at hv
  have hone := Value.ty_ofScalar_one hscalar
  have hpairs : Value.Pairs (.ofScalar (.one x.ty.kind)) v :=
    ⟨by rw [hone]; exact ValueType.isMatrix_of_isScalar hscalar, .inl (hvty.trans hone.symm)⟩
  obtain ⟨z, hz, _, hexact⟩ :=
    Value.exists_componentwise_ring hpairs (by rwa [hone]) (.inr (.inr rfl) : BinaryOp.IsRing .sub)
  refine ⟨z, ?_, fun i e he => ?_⟩
  · rw [evaluates_iff, hpgraph, hx, hs.eval_oneMinus_eq hx hp b, hv]
    rwa [hone] at hz
  · obtain ⟨c, d, hc, hd, _, he⟩ := (hexact i e).1 he
    have hc' : c = .one x.ty.kind := by
      unfold Value.at? at hc
      rw [hone, if_pos hscalar] at hc
      exact (Option.some.inj hc).symm
    have hinteger : c.integer = 1 := by
      rw [hc']
      rcases hkind with hkind | hkind <;> rw [hkind] <;> decide
    rw [hinteger] at he
    exact ⟨d, hd, he⟩

end Steady

end Session

/-! ### Terms -/

/-- How an expression is made of operands by products, sums, differences and complements to one. -/
inductive Term (n : Nat) where
  | operand (y : Operand n)
  | binary (op : BinaryOp) (hop : op.IsRing) (left right : Term n)
  | oneMinus (t : Term n)

namespace Term

def operands : Term n → List (Operand n)
  | operand y => [y]
  | binary _ _ left right => left.operands ++ right.operands
  | oneMinus t => t.operands

/-- The integer of a term, with an integer for each operand. -/
def integer (ρ : Operand n → Int) : Term n → Int
  | operand y => ρ y
  | binary op _ left right => op.exact (left.integer ρ) (right.integer ρ)
  | oneMinus t => 1 - t.integer ρ

/-- The calls have made a term as an operand. -/
inductive Made (events : List (Event n)) : Term n → Operand n → Prop where
  | operand (y : Operand n) : Made events (operand y) y
  | binary {op : BinaryOp} (hop : op.IsRing) {left right : Term n} {x p : Node n} {y : Operand n}
    (hleft : Made events left (.node x)) (hright : Made events right y)
    (hp : ⟨.binary op x y, .ok (.node p)⟩ ∈ events) : Made events (binary op hop left right) (.node p)
  | oneMinus {t : Term n} {x p : Node n} (hx : Made events t (.node x))
    (hp : ⟨.oneMinus x, .ok (.node p)⟩ ∈ events) : Made events (oneMinus t) (.node p)

end Term

/-- An operand of a graph, if it is a node, with components of a kind. -/
def Operand.OfKind (g : Fin n) (kind : Kind) : Operand n → Prop
  | node x => x.graph = g ∧ x.ty.kind = kind
  | literal _ => True

section

variable {g : Fin n} {s : Session n} {held : List (Reply n)} {events : List (Event n)} {op : BinaryOp} {kind : Kind}
  {x p : Node n} {y : Operand n} {b : Bindings} {v : Value} {t : Term n}

theorem Session.Steady.ofKind_of_event (hs : s.Steady g held events) (hkind : kind.IsInteger) (hop : op ≠ .lessThan)
    (hp : ⟨.binary op x y, .ok (.node p)⟩ ∈ events) (h : (Operand.node p).OfKind g kind) :
    (Operand.node x).OfKind g kind ∧ y.OfKind g kind := by
  obtain ⟨hpgraph, hpkind⟩ := h
  obtain ⟨howner, hgraph, haccepts, _⟩ := hs.binary_of_event hp
  have hx : x.graph = g := hgraph.symm.trans hpgraph
  have hxkind : x.ty.kind = kind := (haccepts.kind_eq hop).symm.trans hpkind
  refine ⟨⟨hx, hxkind⟩, ?_⟩
  cases y with
  | node z =>
    refine ⟨(howner z (List.mem_singleton_self _)).trans hx, ?_⟩
    rcases haccepts.right_cases (ValueType.isMatrix_of_isInteger (hxkind ▸ hkind)) with h | h | h
    · rw [OperandType.typed.inj h, hxkind]
    · rw [OperandType.typed.inj h, ← hxkind, ValueType.kind_scalarType]
    · exact absurd h nofun
  | literal => trivial

theorem Session.Steady.ofKind_of_oneMinus (hs : s.Steady g held events) (hp : ⟨.oneMinus x, .ok (.node p)⟩ ∈ events)
    (h : (Operand.node p).OfKind g kind) : (Operand.node x).OfKind g kind := by
  obtain ⟨hgraph, _, hty⟩ := hs.oneMinus_of_event hp
  exact ⟨hgraph.symm.trans h.1, hty ▸ h.2⟩

namespace Term.Made

/-- What has a value was made of operands that have values. -/
theorem operands_contribute (hs : s.Steady g held events) (hkind : kind.IsInteger) (hmade : t.Made events y)
    (hy : y.OfKind g kind) (hv : y.Contributes s b kind v) : ∀ z ∈ t.operands, ∃ w, z.Contributes s b kind w := by
  induction hmade generalizing v with
  | operand y =>
    intro z hz
    cases List.mem_singleton.1 hz
    exact ⟨v, hv⟩
  | binary hop _ _ hp ihleft ihright =>
    obtain ⟨hx, hright⟩ := hs.ofKind_of_event hkind hop.ne_lessThan hp hy
    obtain ⟨v, w, hv, hw, _⟩ := (hs.evaluates_binary_iff hx.1 hp).1 hv
    rw [hx.2] at hw
    intro z hz
    rcases List.mem_append.1 hz with hz | hz
    · exact ihleft hx hv z hz
    · exact ihright hright hw z hz
  | oneMinus _ hp ih =>
    have hx := hs.ofKind_of_oneMinus hp hy
    have hv := Session.evaluates_iff.1 hv
    rw [hy.1, hs.eval_oneMinus_eq hx.1 hp b] at hv
    obtain ⟨v, hv, _⟩ := exists_of_bind_ok hv
    exact ih hx (Session.evaluates_iff.2 (hx.1.symm ▸ hv))

/-- What was made of operands that have values has a value, which is at each place that of the term, modulo `2 ^ 32`. -/
theorem exists_contributes (hs : s.Steady g held events) (hkind : kind.IsInteger) (hmade : t.Made events y)
    (hy : y.OfKind g kind) (hoperands : ∀ z ∈ t.operands, ∃ w, z.Contributes s b kind w) :
    ∃ v, y.Contributes s b kind v ∧ ∀ i e, v.at? i = some e →
      e.integer ≡ t.integer (Operand.integerAt s b kind i) [ZMOD 2 ^ 32] := by
  induction hmade with
  | operand y =>
    obtain ⟨v, hv⟩ := hoperands y (List.mem_singleton_self y)
    refine ⟨v, hv, fun i e he => ?_⟩
    show _ ≡ y.integerAt s b kind i [ZMOD 2 ^ 32]
    rw [Operand.integerAt_eq hv he]
  | binary hop _ _ hp ihleft ihright =>
    obtain ⟨hx, hright⟩ := hs.ofKind_of_event hkind hop.ne_lessThan hp hy
    obtain ⟨v, hv, hleft⟩ := ihleft hx fun z hz => hoperands z (List.mem_append_left _ hz)
    obtain ⟨w, hw, hright⟩ := ihright hright fun z hz => hoperands z (List.mem_append_right _ hz)
    obtain ⟨z, hz, _, hexact⟩ := hs.exists_evaluates_ring hx.1 hop (hx.2 ▸ hkind) hp hv (hx.2 ▸ hw)
    refine ⟨z, hz, fun i e he => ?_⟩
    obtain ⟨c, d, hc, hd, _, he⟩ := (hexact i e).1 he
    exact he.trans (hop.exact_modEq (hleft i c hc) (hright i d hd))
  | oneMinus _ hp ih =>
    have hx := hs.ofKind_of_oneMinus hp hy
    obtain ⟨v, hv, hoperand⟩ := ih hx hoperands
    obtain ⟨z, hz, hexact⟩ := hs.exists_evaluates_oneMinus hx.1 (hx.2 ▸ hkind) hp hv
    refine ⟨z, hz, fun i e he => ?_⟩
    obtain ⟨d, hd, he⟩ := hexact i e he
    exact he.trans (Int.ModEq.sub rfl (hoperand i d hd))

/-- Terms that are equal for all integers have equal values, where their operands have values. -/
theorem exists_evaluates (hs : s.Steady g held events) {t' : Term n} {p' : Node n} (hkind : kind.IsInteger)
    (hmade : t.Made events (.node p)) (hmade' : t'.Made events (.node p')) (hp : (Operand.node p).OfKind g kind)
    (hp' : (Operand.node p').OfKind g kind) (hheld : ∃ r ∈ held, p ∈ r.nodes) (hheld' : ∃ r ∈ held, p' ∈ r.nodes)
    (hty : p.ty = p'.ty) (hequal : ∀ ρ, t.integer ρ = t'.integer ρ)
    (hoperands : ∀ z ∈ t.operands ++ t'.operands, ∃ w, z.Contributes s b kind w) :
    ∃ z, s.Evaluates b p z ∧ s.Evaluates b p' z := by
  obtain ⟨v, hv, hexact⟩ := hmade.exists_contributes hs hkind hp fun z hz => hoperands z (List.mem_append_left _ hz)
  obtain ⟨v', hv', hexact'⟩ :=
    hmade'.exists_contributes hs hkind hp' fun z hz => hoperands z (List.mem_append_right _ hz)
  have hvty : v.ty = p.ty := hs.ty_of_evaluates hp.1 hheld hv
  have hvty' : v'.ty = p'.ty := hs.ty_of_evaluates hp'.1 hheld' hv'
  have hsame : v.ty = v'.ty := by rw [hvty, hvty', hty]
  have heq : v = v' := by
    refine Value.ext_at? hsame fun i c d hc hd => ?_
    have hintegers : c.Integers d := by
      refine Scalar.integers_of_kind ?_ ?_
      · rwa [Value.kind_of_at? hc, hvty, hp.2]
      · rw [Value.kind_of_at? hc, Value.kind_of_at? hd, hsame]
    refine hintegers.eq_of_modEq ((hexact i c hc).trans ?_)
    rw [hequal]
    exact (hexact' i d hd).symm
  exact ⟨v, hv, heq ▸ hv'⟩

/-- If they are also made of the same operands, one is evaluated where the other is. -/
theorem evaluates_iff (hs : s.Steady g held events) {t' : Term n} {p' : Node n} (hkind : kind.IsInteger)
    (hmade : t.Made events (.node p)) (hmade' : t'.Made events (.node p')) (hp : (Operand.node p).OfKind g kind)
    (hp' : (Operand.node p').OfKind g kind) (hheld : ∃ r ∈ held, p ∈ r.nodes) (hheld' : ∃ r ∈ held, p' ∈ r.nodes)
    (hty : p.ty = p'.ty) (hequal : ∀ ρ, t.integer ρ = t'.integer ρ) (hoperands : t.operands ⊆ t'.operands)
    (hoperands' : t'.operands ⊆ t.operands) (z : Value) : s.Evaluates b p z ↔ s.Evaluates b p' z := by
  have hall := hmade.exists_evaluates hs (b := b) hkind hmade' hp hp' hheld hheld' hty hequal
  constructor
  · intro hz
    have hvalues := hmade.operands_contribute hs hkind hp hz
    obtain ⟨z', h, h'⟩ := hall fun y hy => hvalues y ((List.mem_append.1 hy).elim id fun hy => hoperands' hy)
    rwa [hz.unique h]
  · intro hz
    have hvalues := hmade'.operands_contribute hs hkind hp' hz
    obtain ⟨z', h, h'⟩ := hall fun y hy => hvalues y ((List.mem_append.1 hy).elim (fun hy => hoperands hy) id)
    rwa [hz.unique h']

end Term.Made

end

namespace Session

variable {g : Fin n} {s : Session n} {held : List (Reply n)} {events : List (Event n)} {op : BinaryOp}
  {x y p q : Node n} {z : Operand n} {b : Bindings}

/-- Integers of 32 bits are calculated with as integers modulo `2 ^ 32`. -/
structure IntegerLaws (s : Session n) (g : Fin n) (held : List (Reply n)) (events : List (Event n)) : Prop where
  /-- Products, sums and differences have values.  There is one scalar of the kind at each place of them: that which is
  congruent to the exact result of what is there of the operands. -/
  ring : ∀ (op : BinaryOp) (x p : Node n) (y : Operand n) (b : Bindings) (v w : Value), x.graph = g →
    op = .mul ∨ op = .add ∨ op = .sub → x.ty.kind.IsInteger → ⟨.binary op x y, .ok (.node p)⟩ ∈ events →
    s.Evaluates b x v → y.Contributes s b x.ty.kind w →
    ∃ z, s.Evaluates b p z ∧ z.ty = x.ty ∧ ∀ i e, z.at? i = some e ↔
      ∃ c d, v.at? i = some c ∧ w.at? i = some d ∧ e.kind = x.ty.kind ∧
        e.integer ≡ op.exact c.integer d.integer [ZMOD 2 ^ 32]
  /-- A division has a value if that of each place has a quotient, and then it is the exact one, truncated toward
  zero. -/
  division : ∀ (x p : Node n) (y : Operand n) (b : Bindings) (v w : Value), x.graph = g → x.ty.kind.IsInteger →
    ⟨.binary .div x y, .ok (.node p)⟩ ∈ events → s.Evaluates b x v → y.Contributes s b x.ty.kind w →
    ((∃ z, s.Evaluates b p z) ↔ ∀ i c d, v.at? i = some c → w.at? i = some d → c.Divides d) ∧
      ∀ z, s.Evaluates b p z → z.ty = x.ty ∧ ∀ i e, z.at? i = some e ↔
        ∃ c d, v.at? i = some c ∧ w.at? i = some d ∧ e.kind = x.ty.kind ∧ e.integer = c.integer.tdiv d.integer
  comparison : ∀ (x p : Node n) (y : Operand n) (b : Bindings) (v w : Value), x.graph = g → x.ty.kind.IsInteger →
    ⟨.binary .lessThan x y, .ok (.node p)⟩ ∈ events → s.Evaluates b x v → y.Contributes s b x.ty.kind w →
    ∃ c d, v.at? 0 = some c ∧ w.at? 0 = some d ∧ s.Evaluates b p (.ofBool (c.integer < d.integer))
  /-- Expressions of one type that are equal for all integers have equal values, where their operands have values. -/
  terms : ∀ (t t' : Term n) (p p' : Node n) (b : Bindings), t.Made events (.node p) → t'.Made events (.node p') →
    p.graph = g → p'.graph = g → (∃ r ∈ held, p ∈ r.nodes) → (∃ r ∈ held, p' ∈ r.nodes) → p.ty.kind.IsInteger →
    p.ty = p'.ty → (∀ ρ, t.integer ρ = t'.integer ρ) →
    (∀ z ∈ t.operands ++ t'.operands, ∃ w, z.Contributes s b p.ty.kind w) →
    ∃ z, s.Evaluates b p z ∧ s.Evaluates b p' z
  cancel : ∀ (x p q : Node n) (y : Operand n) (b : Bindings) (v w : Value), x.graph = g → x.ty.kind.IsInteger →
    ⟨.binary .add x y, .ok (.node p)⟩ ∈ events → ⟨.binary .sub p y, .ok (.node q)⟩ ∈ events →
    s.Evaluates b x v → y.Contributes s b x.ty.kind w → s.Evaluates b q v
  complement : ∀ x p q : Node n, x.graph = g → x.ty.kind.IsInteger → ⟨.oneMinus x, .ok (.node p)⟩ ∈ events →
    ⟨.oneMinus p, .ok (.node q)⟩ ∈ events → s.Agree q x
  assoc : ∀ (op : BinaryOp) (x y xy yz l r : Node n) (z : Operand n), op = .mul ∨ op = .add → x.graph = g →
    x.ty.kind.IsInteger → ⟨.binary op x (.node y), .ok (.node xy)⟩ ∈ events →
    ⟨.binary op xy z, .ok (.node l)⟩ ∈ events → ⟨.binary op y z, .ok (.node yz)⟩ ∈ events →
    ⟨.binary op x (.node yz), .ok (.node r)⟩ ∈ events → ∀ b v, s.Evaluates b l v ↔ s.Evaluates b r v
  left_distrib : ∀ (op : BinaryOp) (x y yz xy xz l r : Node n) (z : Operand n), op = .add ∨ op = .sub → x.graph = g →
    x.ty.kind.IsInteger → ⟨.binary op y z, .ok (.node yz)⟩ ∈ events →
    ⟨.binary .mul x (.node yz), .ok (.node l)⟩ ∈ events → ⟨.binary .mul x (.node y), .ok (.node xy)⟩ ∈ events →
    ⟨.binary .mul x z, .ok (.node xz)⟩ ∈ events → ⟨.binary op xy (.node xz), .ok (.node r)⟩ ∈ events →
    ∀ b v, s.Evaluates b l v ↔ s.Evaluates b r v
  right_distrib : ∀ (op : BinaryOp) (x y xy xz yz l r : Node n) (z : Operand n), op = .add ∨ op = .sub → x.graph = g →
    x.ty.kind.IsInteger → ⟨.binary op x (.node y), .ok (.node xy)⟩ ∈ events →
    ⟨.binary .mul xy z, .ok (.node l)⟩ ∈ events → ⟨.binary .mul x z, .ok (.node xz)⟩ ∈ events →
    ⟨.binary .mul y z, .ok (.node yz)⟩ ∈ events → ⟨.binary op xz (.node yz), .ok (.node r)⟩ ∈ events →
    ∀ b v, s.Evaluates b l v ↔ s.Evaluates b r v

namespace Steady

theorem ring_of_event (hs : s.Steady g held events) (hx : x.graph = g) (hkind : x.ty.kind.IsInteger)
    (hop : op.IsRing) (hp : ⟨.binary op x z, .ok (.node p)⟩ ∈ events) :
    p.graph = g ∧ p.ty = x.ty ∧ ∃ r ∈ held, p ∈ r.nodes := by
  obtain ⟨hgraph, hty⟩ := hs.result_of_event hx hkind hop.ne_lessThan hp
  exact ⟨hgraph, hty, _, hs.replied hp, List.mem_singleton_self p⟩

/-- A sum minus one of its operands is the other one. -/
theorem evaluates_cancel (hs : s.Steady g held events) {v w : Value} (hx : x.graph = g) (hkind : x.ty.kind.IsInteger)
    (hp : ⟨.binary .add x z, .ok (.node p)⟩ ∈ events) (hq : ⟨.binary .sub p z, .ok (.node q)⟩ ∈ events)
    (hv : s.Evaluates b x v) (hw : z.Contributes s b x.ty.kind w) : s.Evaluates b q v := by
  have hadd : BinaryOp.IsRing .add := by simp [BinaryOp.IsRing]
  have hsub : BinaryOp.IsRing .sub := by simp [BinaryOp.IsRing]
  obtain ⟨hpgraph, hpty, _⟩ := hs.ring_of_event hx hkind hadd hp
  obtain ⟨hqgraph, hqty, hqheld⟩ := hs.ring_of_event hpgraph (hpty ▸ hkind) hsub hq
  rw [hpty] at hqty
  obtain ⟨u, hqu, hxu⟩ : ∃ u, s.Evaluates b q u ∧ s.Evaluates b x u := by
    refine Term.Made.exists_evaluates hs hkind
      (.binary hsub (.binary hadd (.operand (.node x)) (.operand z) hp) (.operand z) hq) (.operand (.node x))
      ⟨hqgraph, by rw [hqty]⟩ ⟨hx, rfl⟩ hqheld (hs.given hp x List.mem_cons_self) hqty (fun ρ => ?_) ?_
    · simp only [Term.integer, BinaryOp.exact]
      ring
    · intro y hy
      simp only [Term.operands, List.mem_append, List.mem_singleton] at hy
      rcases hy with ((rfl | rfl) | rfl) | rfl
      · exact ⟨v, hv⟩
      · exact ⟨w, hw⟩
      · exact ⟨w, hw⟩
      · exact ⟨v, hv⟩
  rwa [hv.unique hxu]

/-- The complement of the complement is the number. -/
theorem agree_complement (hs : s.Steady g held events) (hx : x.graph = g) (hkind : x.ty.kind.IsInteger)
    (hp : ⟨.oneMinus x, .ok (.node p)⟩ ∈ events) (hq : ⟨.oneMinus p, .ok (.node q)⟩ ∈ events) : s.Agree q x := by
  obtain ⟨hpgraph, _, hpty⟩ := hs.oneMinus_of_event hp
  obtain ⟨hqgraph, _, hqty⟩ := hs.oneMinus_of_event hq
  have hgraph : q.graph = g := hqgraph.trans (hpgraph.trans hx)
  have hty : q.ty = x.ty := hqty.trans hpty
  have hiff : ∀ b v, s.Evaluates b q v ↔ s.Evaluates b x v := by
    intro b v
    refine Term.Made.evaluates_iff hs hkind (.oneMinus (.oneMinus (.operand (.node x)) hp) hq) (.operand (.node x))
      ⟨hgraph, by rw [hty]⟩ ⟨hx, rfl⟩ ⟨_, hs.replied hq, List.mem_singleton_self q⟩
      (hs.given hp x (List.mem_singleton_self x)) hty (fun ρ => ?_) (by simp [Term.operands])
      (by simp [Term.operands]) v
    simp only [Term.integer]
    ring
  refine agree_of_eval fun b => ?_
  rw [hgraph, hx]
  cases hv : (s.builder g).graph.eval b x.handle with
  | error failure =>
    rw [hs.eval_oneMinus_eq (hpgraph.trans hx) hq b, hs.eval_oneMinus_eq hx hp b, hv]
    rfl
  | ok v =>
    have hvalue := (hiff b v).2 (evaluates_iff.2 (hx.symm ▸ hv))
    rwa [evaluates_iff, hgraph] at hvalue

/-- Products and sums can be reassociated. -/
theorem evaluates_assoc (hs : s.Steady g held events) {xy yz l r : Node n} (hop : op = .mul ∨ op = .add)
    (hx : x.graph = g) (hkind : x.ty.kind.IsInteger) (hxy : ⟨.binary op x (.node y), .ok (.node xy)⟩ ∈ events)
    (hl : ⟨.binary op xy z, .ok (.node l)⟩ ∈ events) (hyz : ⟨.binary op y z, .ok (.node yz)⟩ ∈ events)
    (hr : ⟨.binary op x (.node yz), .ok (.node r)⟩ ∈ events) (v : Value) :
    s.Evaluates b l v ↔ s.Evaluates b r v := by
  have hring : op.IsRing := hop.imp id .inl
  obtain ⟨hxygraph, hxyty, _⟩ := hs.ring_of_event hx hkind hring hxy
  obtain ⟨hlgraph, hlty, hlheld⟩ := hs.ring_of_event hxygraph (hxyty ▸ hkind) hring hl
  obtain ⟨hrgraph, hrty, hrheld⟩ := hs.ring_of_event hx hkind hring hr
  rw [hxyty] at hlty
  refine Term.Made.evaluates_iff hs hkind
    (.binary hring (.binary hring (.operand (.node x)) (.operand (.node y)) hxy) (.operand z) hl)
    (.binary hring (.operand (.node x)) (.binary hring (.operand (.node y)) (.operand z) hyz) hr)
    ⟨hlgraph, by rw [hlty]⟩ ⟨hrgraph, by rw [hrty]⟩ hlheld hrheld (hlty.trans hrty.symm) (fun ρ => ?_)
    (by simp [Term.operands]) (by simp [Term.operands]) v
  rcases hop with rfl | rfl <;> simp only [Term.integer, BinaryOp.exact] <;> ring

/-- Products distribute over sums and differences on the right. -/
theorem evaluates_left_distrib (hs : s.Steady g held events) {yz xy xz l r : Node n} (hop : op = .add ∨ op = .sub)
    (hx : x.graph = g) (hkind : x.ty.kind.IsInteger) (hyz : ⟨.binary op y z, .ok (.node yz)⟩ ∈ events)
    (hl : ⟨.binary .mul x (.node yz), .ok (.node l)⟩ ∈ events)
    (hxy : ⟨.binary .mul x (.node y), .ok (.node xy)⟩ ∈ events) (hxz : ⟨.binary .mul x z, .ok (.node xz)⟩ ∈ events)
    (hr : ⟨.binary op xy (.node xz), .ok (.node r)⟩ ∈ events) (v : Value) :
    s.Evaluates b l v ↔ s.Evaluates b r v := by
  have hring : op.IsRing := .inr hop
  have hmul : BinaryOp.IsRing .mul := .inl rfl
  obtain ⟨hlgraph, hlty, hlheld⟩ := hs.ring_of_event hx hkind hmul hl
  obtain ⟨hxygraph, hxyty, _⟩ := hs.ring_of_event hx hkind hmul hxy
  obtain ⟨hrgraph, hrty, hrheld⟩ := hs.ring_of_event hxygraph (hxyty ▸ hkind) hring hr
  rw [hxyty] at hrty
  refine Term.Made.evaluates_iff hs hkind
    (.binary hmul (.operand (.node x)) (.binary hring (.operand (.node y)) (.operand z) hyz) hl)
    (.binary hring (.binary hmul (.operand (.node x)) (.operand (.node y)) hxy)
      (.binary hmul (.operand (.node x)) (.operand z) hxz) hr)
    ⟨hlgraph, by rw [hlty]⟩ ⟨hrgraph, by rw [hrty]⟩ hlheld hrheld (hlty.trans hrty.symm) (fun ρ => ?_)
    (by simp [Term.operands]) (by simp [Term.operands]) v
  rcases hop with rfl | rfl <;> simp only [Term.integer, BinaryOp.exact] <;> ring

/-- Products distribute over sums and differences on the left. -/
theorem evaluates_right_distrib (hs : s.Steady g held events) {xy xz yz l r : Node n} (hop : op = .add ∨ op = .sub)
    (hx : x.graph = g) (hkind : x.ty.kind.IsInteger) (hxy : ⟨.binary op x (.node y), .ok (.node xy)⟩ ∈ events)
    (hl : ⟨.binary .mul xy z, .ok (.node l)⟩ ∈ events) (hxz : ⟨.binary .mul x z, .ok (.node xz)⟩ ∈ events)
    (hyz : ⟨.binary .mul y z, .ok (.node yz)⟩ ∈ events) (hr : ⟨.binary op xz (.node yz), .ok (.node r)⟩ ∈ events)
    (v : Value) : s.Evaluates b l v ↔ s.Evaluates b r v := by
  have hring : op.IsRing := .inr hop
  have hmul : BinaryOp.IsRing .mul := .inl rfl
  obtain ⟨hxygraph, hxyty, _⟩ := hs.ring_of_event hx hkind hring hxy
  obtain ⟨hlgraph, hlty, hlheld⟩ := hs.ring_of_event hxygraph (hxyty ▸ hkind) hmul hl
  obtain ⟨hxzgraph, hxzty, _⟩ := hs.ring_of_event hx hkind hmul hxz
  obtain ⟨hrgraph, hrty, hrheld⟩ := hs.ring_of_event hxzgraph (hxzty ▸ hkind) hring hr
  rw [hxyty] at hlty
  rw [hxzty] at hrty
  refine Term.Made.evaluates_iff hs hkind
    (.binary hmul (.binary hring (.operand (.node x)) (.operand (.node y)) hxy) (.operand z) hl)
    (.binary hring (.binary hmul (.operand (.node x)) (.operand z) hxz)
      (.binary hmul (.operand (.node y)) (.operand z) hyz) hr)
    ⟨hlgraph, by rw [hlty]⟩ ⟨hrgraph, by rw [hrty]⟩ hlheld hrheld (hlty.trans hrty.symm) (fun ρ => ?_)
    (by simp [Term.operands]) (by simp [Term.operands]) v
  rcases hop with rfl | rfl <;> simp only [Term.integer, BinaryOp.exact] <;> ring

/-- In a session without assignments, operators on signed and unsigned integers, be they numbers or vectors, with an
expression or a literal on the right, are exact modulo `2 ^ 32`.  So expressions that are equal for all integers have
equal values; in particular sums cancel, complements too, and products and sums can be reassociated and distributed.
-/
theorem integer_laws (hs : s.Steady g held events) : s.IntegerLaws g held events where
  ring _ _ _ _ _ _ _ hx hop hkind hp hv hw := hs.exists_evaluates_ring hx hop hkind hp hv hw
  division _ _ _ _ _ _ hx hkind hp hv hw := hs.evaluates_div hx hkind hp hv hw
  comparison _ _ _ _ _ _ hx hkind hp hv hw := hs.evaluates_lessThan hx hkind hp hv hw
  terms _ _ _ _ _ hmade hmade' hp hp' hheld hheld' hkind hty hequal hoperands :=
    hmade.exists_evaluates hs hkind hmade' ⟨hp, rfl⟩ ⟨hp', by rw [hty]⟩ hheld hheld' hty hequal hoperands
  cancel _ _ _ _ _ _ _ hx hkind hp hq hv hw := hs.evaluates_cancel hx hkind hp hq hv hw
  complement _ _ _ hx hkind hp hq := hs.agree_complement hx hkind hp hq
  assoc _ _ _ _ _ _ _ _ hop hx hkind hxy hl hyz hr _ v := hs.evaluates_assoc hop hx hkind hxy hl hyz hr v
  left_distrib _ _ _ _ _ _ _ _ _ hop hx hkind hyz hl hxy hxz hr _ v :=
    hs.evaluates_left_distrib hop hx hkind hyz hl hxy hxz hr v
  right_distrib _ _ _ _ _ _ _ _ _ hop hx hkind hxy hl hxz hyz hr _ v :=
    hs.evaluates_right_distrib hop hx hkind hxy hl hxz hyz hr v

/-- A number that was added to the integers of an attribute is subtracted again, also where the sum wraps. -/
theorem integer_laws_attr :
    ∃ (s : Session 1) (held : List (Reply 1)) (events : List (Event 1)) (x y p q : Node 1) (b : Bindings)
        (v w z : Value),
      s.Steady 0 held events ∧ x.ty = .ivec2 ∧ y.ty = .int ∧ ⟨.binary .add x (.node y), .ok (.node p)⟩ ∈ events ∧
        ⟨.binary .sub p (.node y), .ok (.node q)⟩ ∈ events ∧
        s.Evaluates b x v ∧ v.components = [.int 2147483647, .int 5] ∧ s.Evaluates b y w ∧ w = .ofInt 1 ∧
        s.Evaluates b p z ∧ z.at? 0 = some (.int (-2147483648)) ∧ z.at? 1 = some (.int 6) ∧ s.Evaluates b q v := by
  have hstart : (ofConfigs #v[Config.standard]).Steady (0 : Fin 1) [] [] := .start (.start _)
  obtain ⟨x, hx, hs⟩ := hstart.attr .ivec2 "offset"
  obtain ⟨y, hy, hs⟩ := hs.attr .int "step"
  have haccepts : ∀ (op : BinaryOp) (s : Session 1) (z : Node 1), op ≠ .lessThan → z.ty = .ivec2 →
      s.Makes (.binary op z (.node y)) 0 .ivec2 := by
    intro op s z hop hz
    refine makes_binary (Subsingleton.elim _ _) (Subsingleton.elim _ _) ?_
    rw [hz, hy]
    exact .scalar hop rfl
  obtain ⟨p, hp, hs⟩ := hs.makes (.of_nodes rfl (by simp [Call.nodes, Operand.nodes]) rfl rfl) rfl
    (haccepts .add _ x (by decide) hx)
  obtain ⟨q, _, hs⟩ := hs.makes (.of_nodes rfl (by simp [Call.nodes, Operand.nodes]) rfl rfl) rfl
    (haccepts .sub _ p (by decide) hp)
  let v : Value := ⟨.ivec2, [.int 2147483647, .int 5], rfl, by decide⟩
  let b : Bindings := (Bindings.empty.set "offset" v).set "step" (.ofInt 1)
  have hv := hs.evaluates_attr .ivec2 "offset" (x := x) (b := b) (v := v) (by simp) rfl
  have hw := hs.evaluates_attr .int "step" (x := y) (b := b) (v := .ofInt 1) (by simp) rfl
  have hkind : x.ty.kind.IsInteger := .inl (by rw [hx]; rfl)
  obtain ⟨z, hz, _, hat⟩ := hs.integer_laws.ring .add x p (.node y) b v (.ofInt 1) (Subsingleton.elim _ _)
    (.inr (.inl rfl)) hkind (by simp) hv hw
  have hq := hs.integer_laws.cancel x p q (.node y) b v (.ofInt 1) (Subsingleton.elim _ _) hkind (by simp) (by simp)
    hv hw
  refine ⟨_, _, _, x, y, p, q, b, v, _, z, hs, hx, hy, by simp, by simp, hv, rfl, hw, rfl, hz, ?_, ?_, hq⟩
  · exact (hat 0 _).2 ⟨_, _, rfl, rfl, by rw [hx]; rfl, by decide⟩
  · exact (hat 1 _).2 ⟨_, _, rfl, rfl, by rw [hx]; rfl, by decide⟩

end Steady

end Session

end ShaderExpr
