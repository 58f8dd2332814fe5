import ShaderExpr.Proofs.Reassembly

/-!
# Conversions

A conversion works on each component for itself.  So it makes no difference whether components are picked before or
after it (`Value.access_cast`), nor whether the arguments of a constructor are converted or what is constructed from
them (`Session.Steady.agree_cast_construct`).

Nothing is lost by a conversion to the own type of a value, nor by one from signed to unsigned integers or back, which
are the same words of 32 bits (`Scalar.convert_back`).
-/

namespace ShaderExpr

variable {n : Nat}

/-- Kinds whose components are integers. -/
def Kind.IsInteger (k : Kind) : Prop :=
  k = .int ∨ k = .uint

namespace Scalar

/-- To convert a scalar once more changes nothing. -/
@[simp]
theorem convert_convert_self (c : Scalar) (k : Kind) : (c.convert k).convert k = c.convert k := by
  have h := (c.convert k).convert_kind
  rwa [kind_convert] at h

/-- Signed and unsigned integers are the same words. -/
theorem convert_back {c : Scalar} {k : Kind} (hc : c.kind.IsInteger) (hk : k.IsInteger) :
    (c.convert k).convert c.kind = c := by
  cases c with
  | int | uint => rcases hk with rfl | rfl <;> rfl
  | bool | float => exact absurd hc (by simp [Kind.IsInteger, kind])

end Scalar

namespace ValueType

variable {source target ty : ValueType} {kind : Kind} {dim : Dim}

theorem ofKindDim?_eq_some_iff :
    ofKindDim? kind dim = some ty ↔ ty.kind = kind ∧ ty.dim = dim ∧ ty.isMatrix = false := by
  constructor
  · intro h
    cases kind <;> cases dim <;> cases h <;> exact ⟨rfl, rfl, rfl⟩
  · rintro ⟨rfl, rfl, hmatrix⟩
    exact ofKindDim?_kind_dim hmatrix

theorem exists_ofKindDim? (hkind : kind ≠ .bool) (dim : Dim) : ∃ ty, ofKindDim? kind dim = some ty := by
  cases kind with
  | bool => exact absurd rfl hkind
  | _ => cases dim <;> exact ⟨_, rfl⟩

theorem kind_ne_bool_iff : ty.kind ≠ .bool ↔ ty ≠ .bool := by
  cases ty <;> decide

/-- Scalars and vectors of numbers convert to every kind of numbers. -/
theorem converts_of_ofKindDim? (hkind : kind ≠ .bool) (hsource : source.kind ≠ .bool)
    (hmatrix : source.isMatrix = false) (h : ofKindDim? kind source.dim = some target) : source.Converts target := by
  obtain ⟨hkind', hdim, hmatrix'⟩ := ofKindDim?_eq_some_iff.1 h
  refine ⟨kind_ne_bool_iff.1 hsource, kind_ne_bool_iff.1 ?_, hmatrix, hmatrix', hdim.symm⟩
  rwa [hkind']

theorem isMatrix_of_isInteger (h : ty.kind.IsInteger) : ty.isMatrix = false := by
  revert h
  unfold Kind.IsInteger
  cases ty <;> decide

/-- Integers convert to integers. -/
theorem converts_of_integers (hsource : source.kind.IsInteger) (htarget : target.kind.IsInteger)
    (hdim : target.dim = source.dim) : source.Converts target := by
  have hnumeric : ∀ k : Kind, k.IsInteger → k ≠ .bool := by
    rintro _ (rfl | rfl) <;> decide
  exact ⟨kind_ne_bool_iff.1 (hnumeric _ hsource), kind_ne_bool_iff.1 (hnumeric _ htarget),
    isMatrix_of_isInteger hsource, isMatrix_of_isInteger htarget, hdim.symm⟩

namespace Converts

theorem symm (h : source.Converts target) : target.Converts source :=
  ⟨h.target_numeric, h.source_numeric, h.target_not_matrix, h.source_not_matrix, h.dim.symm⟩

theorem componentCount_eq (h : source.Converts target) : source.componentCount = target.componentCount :=
  componentCount_eq_of_conversion (checkConversion_eq_ok.2 (convertsTo_iff.2 h))

theorem isVector_eq (h : source.Converts target) : target.isVector = source.isVector := by
  unfold isVector isScalar
  rw [h.dim, h.source_not_matrix, h.target_not_matrix]

/-- What was converted has the accessors of the source, with components of the other kind. -/
theorem accesses {name : String} {picked : ValueType} (h : source.Converts target)
    (hpicked : source.Accesses name picked) (hty : ofKindDim? target.kind picked.dim = some ty) :
    target.Accesses name ty := by
  obtain ⟨hkind, hdim, hmatrix⟩ := ofKindDim?_eq_some_iff.1 hty
  obtain ⟨alphabet, halphabet, first, hwidth, hthree, hname⟩ := hpicked.letters
  refine ⟨h.isVector_eq.trans hpicked.vector, hkind, hmatrix, alphabet, halphabet, first, ?_, ?_, ?_⟩
  · rwa [hdim, ← h.dim]
  · have hvector : ty.isVector = picked.isVector := by
      unfold isVector isScalar
      rw [hdim, hmatrix, hpicked.not_matrix]
    rwa [hdim, hvector]
  · rwa [hdim]

end Converts

/-- An accessor has as many letters as components. -/
theorem Accesses.width_eq_length {name : String} (h : source.Accesses name ty) : ty.dim.width = name.length := by
  obtain ⟨alphabet, halphabet, first, hwidth, _, hname⟩ := h.letters
  have hsource := source.width_le
  have hfour : alphabet.length = 4 := by
    simp only [Selector.alphabets, List.mem_cons, List.not_mem_nil, or_false] at halphabet
    rcases halphabet with rfl | rfl <;> rfl
  rw [← String.length_toList, hname, List.length_take, List.length_drop]
  omega

end ValueType

namespace Value

variable {target ty : ValueType} {v w : Value}

/-- Components may be converted before a value is rebuilt from them. -/
theorem rebuild_map_convert (ty : ValueType) (components : List Scalar) :
    rebuild ty (components.map fun c => c.convert ty.kind) = rebuild ty components := by
  unfold rebuild ofComponents?
  by_cases hlength : components.length = ty.componentCount <;> simp [hlength, Function.comp_def]

theorem exists_cast (h : v.ty.Converts target) :
    ∃ w, rebuild target v.components = .ok w ∧ w.ty = target ∧
      w.components = v.components.map fun c => c.convert target.kind := by
  obtain ⟨w, hw, _⟩ := rebuild_ok (v.length_components.trans h.componentCount_eq)
  exact ⟨w, hw, (rebuild_eq_ok.1 hw).2⟩

/-- Components are picked from a value that was converted, or converted after they were picked. -/
theorem access_cast {name : String} {v' : Value} (source : Handle)
    (hv' : (Selector.indices name).map (v.components[·]?) = v'.components.map some)
    (hw : rebuild target v.components = .ok w) (hty : target.checkAccess name = .ok ty) :
    w.access source name ty = rebuild ty v'.components := by
  obtain ⟨_, rfl, hcomponents⟩ := rebuild_eq_ok.1 hw
  obtain ⟨u, hu, hu', hpicked⟩ := exists_access source hty
  rw [hu, eq_comm, rebuild_eq_ok]
  refine ⟨?_, hu', map_some_inj ?_⟩
  · rw [length_of_map_eq_map_some hv']
    exact (ValueType.indices_of_checkAccess hty).1
  · have hconverted := congrArg (List.map (Option.map fun c => c.convert w.ty.kind)) hv'
    rw [← hpicked, hcomponents, (ValueType.checkAccess_iff.1 hty).kind]
    simpa [Function.comp_def] using hconverted

/-- The outcome of an expression and that of its conversion to a kind: the same failure, or values whose components are
converted. -/
inductive Converted (kind : Kind) : Except EvalFailure Value → Except EvalFailure Value → Prop where
  | error (failure : EvalFailure) : Converted kind (.error failure) (.error failure)
  | ok {v w : Value} (h : w.components = v.components.map fun c => c.convert kind) : Converted kind (.ok v) (.ok w)

/-- Arguments that are converted one by one have all their components converted. -/
theorem mapM_converted {α β : Type} {kind : Kind} {f : α → Except EvalFailure Value} {f' : β → Except EvalFailure Value}
    {xs : List α} {ys : List β} (h : List.Forall₂ (fun x y => Converted kind (f x) (f' y)) xs ys) :
    (∃ failure, xs.mapM f = .error failure ∧ ys.mapM f' = .error failure) ∨
      ∃ values values', xs.mapM f = .ok values ∧ ys.mapM f' = .ok values' ∧
        values'.flatMap components = (values.flatMap components).map fun c => c.convert kind := by
  induction h with
  | nil => exact .inr ⟨[], [], rfl, rfl, rfl⟩
  | @cons x y xs ys hfirst _ ih =>
    rw [List.mapM_cons, List.mapM_cons]
    generalize f x = outcome, f' y = outcome' at hfirst
    cases hfirst with
    | error failure => exact .inl ⟨failure, rfl, rfl⟩
    | @ok v w hvw =>
      rcases ih with ⟨failure, hxs, hys⟩ | ⟨values, values', hxs, hys, hcomponents⟩
      · rw [hxs, hys]
        exact .inl ⟨failure, rfl, rfl⟩
      · rw [hxs, hys]
        refine .inr ⟨v :: values, w :: values', rfl, rfl, ?_⟩
        rw [List.flatMap_cons, List.flatMap_cons, List.map_append, hvw, hcomponents]

end Value

namespace Session

variable {g : Fin n} {s : Session n} {held : List (Reply n)} {events : List (Event n)} {x y p q : Node n}
  {target : ValueType}

/-- Each of the nodes was converted to a kind, at its own width. -/
def CastEach (events : List (Event n)) (kind : Kind) (xs parts : List (Node n)) : Prop :=
  List.Forall₂ (fun x part => ∃ ty, ValueType.ofKindDim? kind x.ty.dim = some ty ∧
    ⟨.cast x ty, .ok (.node part)⟩ ∈ events) xs parts

namespace Steady

theorem cast_of_event (hs : s.Steady g held events) (he : ⟨.cast x target, .ok (.node p)⟩ ∈ events) :
    p.graph = x.graph ∧ x.ty.Converts target ∧ p.ty = target := by
  obtain ⟨t, ht⟩ := hs.performed he
  exact (decides_cast x target).law_of_node ht

/-- A conversion has the outcome of its operand, with the components converted. -/
theorem converted_of_event (hs : s.Steady g held events) (hx : x.graph = g)
    (he : ⟨.cast x target, .ok (.node p)⟩ ∈ events) (b : Bindings) :
    Value.Converted target.kind ((s.builder g).graph.eval b x.handle) ((s.builder g).graph.eval b p.handle) := by
  rw [hs.eval_cast hx he b]
  cases hvalue : (s.builder g).graph.eval b x.handle with
  | error failure => exact .error failure
  | ok v =>
    have hvty := hs.ty_of_eval hx (hs.given he x (List.mem_singleton_self x)) hvalue
    obtain ⟨w, hw, _, hcomponents⟩ := Value.exists_cast (hvty ▸ (hs.cast_of_event he).2.1)
    show Value.Converted target.kind (.ok v) (Value.rebuild target v.components)
    rw [hw]
    exact .ok hcomponents

section

variable {name : String} {ty : ValueType}

theorem access_of_cast (hs : s.Steady g held events) (hp : ⟨.cast x target, .ok (.node p)⟩ ∈ events)
    (hy : ⟨.access x name, .ok (.node y)⟩ ∈ events) (hty : ValueType.ofKindDim? target.kind y.ty.dim = some ty) :
    p.ty.Accesses name ty ∧ y.ty.Converts ty := by
  obtain ⟨_, hconverts, hpty⟩ := hs.cast_of_event hp
  have haccesses := ValueType.checkAccess_iff.1 (hs.checkAccess_of_event hy).2
  refine ⟨hpty ▸ hconverts.accesses haccesses hty, ?_⟩
  refine ValueType.converts_of_ofKindDim? ?_ ?_ haccesses.not_matrix hty
  · exact ValueType.kind_ne_bool_iff.2 hconverts.target_numeric
  · rw [haccesses.kind]
    exact ValueType.kind_ne_bool_iff.2 hconverts.source_numeric

/-- Components are picked from a conversion, or picked and then converted. -/
theorem agree_access_cast (hs : s.Steady g held events) (hx : x.graph = g)
    (hp : ⟨.cast x target, .ok (.node p)⟩ ∈ events) (hy : ⟨.access x name, .ok (.node y)⟩ ∈ events)
    (hty : ValueType.ofKindDim? target.kind y.ty.dim = some ty) {r : Node n}
    (hq : ⟨.access p name, .ok (.node q)⟩ ∈ events) (hr : ⟨.cast y ty, .ok (.node r)⟩ ∈ events) : s.Agree q r := by
  obtain ⟨hpgraph, hconverts, hpty⟩ := hs.cast_of_event hp
  obtain ⟨hygraph, hychecked⟩ := hs.checkAccess_of_event hy
  obtain ⟨hqgraph, hqchecked⟩ := hs.checkAccess_of_event hq
  have hqty : q.ty = ty := by
    have h := ValueType.checkAccess_iff.2 (hs.access_of_cast hp hy hty).1
    rw [hqchecked] at h
    exact Except.ok.inj h
  refine agree_of_eval fun b => ?_
  rw [hqgraph, hpgraph, (hs.cast_of_event hr).1, hygraph, hx, hs.eval_access (hpgraph.trans hx) hq b,
    hs.eval_cast hx hp b, hs.eval_cast (hygraph.trans hx) hr b, hs.eval_access hx hy b]
  cases hvalue : (s.builder g).graph.eval b x.handle with
  | error failure => rfl
  | ok v =>
    have hvty := hs.ty_of_eval hx (hs.given hp x (List.mem_singleton_self x)) hvalue
    obtain ⟨w, hw, _⟩ := Value.exists_cast (hvty ▸ hconverts)
    obtain ⟨v', hv', _, hpicked⟩ := Value.exists_access x.handle (hvty ▸ hychecked)
    have hcomm := Value.access_cast p.handle hpicked hw (hpty ▸ hqchecked)
    show (Value.rebuild target v.components >>= fun w => w.access p.handle name q.ty) =
      v.access x.handle name y.ty >>= fun v' => Value.rebuild ty v'.components
    rw [hw, hv', ← hqty]
    exact hcomm

end

section

variable {source : ValueType} {xs parts : List (Node n)}

/-- An argument of a constructor converts to the kind of what the constructor converts to. -/
theorem converts_argument (hs : s.Steady g held events)
    (hy : ⟨.construct g source (xs.map .node), .ok (.node y)⟩ ∈ events)
    (hp : ⟨.cast y target, .ok (.node p)⟩ ∈ events) (hx : x ∈ xs) :
    x.graph = g ∧ ∀ ty, ValueType.ofKindDim? target.kind x.ty.dim = some ty → x.ty.Converts ty := by
  obtain ⟨_, hyty, howners, hsuits⟩ := hs.construct_of_event hy
  obtain ⟨_, hconverts, _⟩ := hs.cast_of_event hp
  have hmem : .node x ∈ xs.map Operand.node := List.mem_map_of_mem hx
  obtain ⟨hmatrix, hkind⟩ : x.ty.isMatrix = false ∧ x.ty.kind = source.kind := hsuits _ hmem
  refine ⟨howners x hmem, fun ty hty => ValueType.converts_of_ofKindDim? ?_ ?_ hmatrix hty⟩
  · exact ValueType.kind_ne_bool_iff.2 hconverts.target_numeric
  · rw [hkind, ← hyty]
    exact ValueType.kind_ne_bool_iff.2 hconverts.source_numeric

/-- The arguments of a constructor can be put together after each of them was converted. -/
theorem makes_construct_cast (hs : s.Steady g held events)
    (hy : ⟨.construct g source (xs.map .node), .ok (.node y)⟩ ∈ events)
    (hp : ⟨.cast y target, .ok (.node p)⟩ ∈ events) (hparts : CastEach events target.kind xs parts) :
    s.Makes (.construct g target (parts.map .node)) g target := by
  obtain ⟨_, hyty, _, _⟩ := hs.construct_of_event hy
  obtain ⟨_, hconverts, _⟩ := hs.cast_of_event hp
  have hdecomposes := hs.decomposes_of_event hy
  have hpart : ∀ part ∈ parts, ∃ x ∈ xs, part.graph = x.graph ∧
      ValueType.ofKindDim? target.kind x.ty.dim = some part.ty := by
    intro part hmem
    obtain ⟨x, hx, ty, hty, he⟩ := exists_of_mem_forall₂ hparts hmem
    obtain ⟨hgraph, _, rfl⟩ := hs.cast_of_event he
    exact ⟨x, hx, hgraph, hty⟩
  refine s.makes_construct_nodes ?_ ⟨?_, ?_, ?_⟩
  · intro part hmem
    obtain ⟨x, hx, hgraph, _⟩ := hpart part hmem
    rw [hgraph, (hs.converts_argument hy hp hx).1]
  · rw [hconverts.isVector_eq, hyty]
    exact hdecomposes.vector
  · refine List.forall_mem_map.2 fun part hmem => ?_
    obtain ⟨x, _, _, hty⟩ := hpart part hmem
    obtain ⟨hkind, _, hmatrix⟩ := ValueType.ofKindDim?_eq_some_iff.1 hty
    exact ⟨hmatrix, hkind⟩
  · have hwidths : xs.map (fun x => x.ty.dim.width) = parts.map fun part => part.ty.dim.width := by
      rw [← List.forall₂_eq_eq_eq, List.forall₂_map_left_iff, List.forall₂_map_right_iff]
      refine hparts.imp ?_
      rintro x part ⟨ty, hty, he⟩
      rw [(hs.cast_of_event he).2.2, (ValueType.ofKindDim?_eq_some_iff.1 hty).2.1]
    have hsum := hdecomposes.width
    rw [List.map_map, List.map_map] at hsum
    rw [← hconverts.dim, hyty, ← hsum, List.map_map]
    exact congrArg List.sum hwidths.symm

/-- What is constructed is converted, or the arguments are and then put together. -/
theorem agree_cast_construct (hs : s.Steady g held events)
    (hy : ⟨.construct g source (xs.map .node), .ok (.node y)⟩ ∈ events)
    (hp : ⟨.cast y target, .ok (.node p)⟩ ∈ events) (hparts : CastEach events target.kind xs parts)
    (hq : ⟨.construct g target (parts.map .node), .ok (.node q)⟩ ∈ events) : s.Agree p q := by
  have hygraph := (hs.construct_of_event hy).1
  refine agree_of_eval fun b => ?_
  rw [(hs.cast_of_event hp).1, hygraph, (hs.construct_of_event hq).1, hs.eval_cast hygraph hp b,
    hs.eval_construct_nodes hy b, hs.eval_construct_nodes hq b]
  have hconverted : List.Forall₂ (fun x part => Value.Converted target.kind
      ((s.builder g).graph.eval b x.handle) ((s.builder g).graph.eval b part.handle)) xs parts := by
    have hmem := (List.forall₂_and_left xs parts).2 ⟨fun _ hx => hx, hparts⟩
    refine hmem.imp ?_
    rintro x part ⟨hx, ty, hty, he⟩
    rw [← (ValueType.ofKindDim?_eq_some_iff.1 hty).1]
    exact hs.converted_of_event (hs.converts_argument hy hp hx).1 he b
  rcases Value.mapM_converted hconverted with ⟨failure, hxs, hps⟩ | ⟨values, values', hxs, hps, hcomponents⟩
  · rw [hxs, hps]
    rfl
  · have hvalues : List.Forall₂ (fun arg v => Operand.outcome? (s.builder g).graph b source.kind arg = some (.ok v))
        (xs.map Operand.node) values :=
      List.forall₂_map_left_iff.2 ((mapM_eq_ok.1 hxs).imp fun _ _ h => congrArg some h)
    obtain ⟨w, hw, _, hwcomponents⟩ := hs.exists_rebuild_of_construct hy hvalues
    rw [hxs, hps]
    show (Value.rebuild source (values.flatMap Value.components) >>= fun v => Value.rebuild target v.components) =
      Value.rebuild target (values'.flatMap Value.components)
    rw [hw, hcomponents, Value.rebuild_map_convert]
    exact congrArg (Value.rebuild target) hwcomponents

end

/-! ### There and back -/

/-- A conversion to the own type changes nothing. -/
theorem agree_cast_self (hs : s.Steady g held events) (hx : x.graph = g)
    (hp : ⟨.cast x x.ty, .ok (.node p)⟩ ∈ events) : s.Agree p x := by
  refine agree_of_eval fun b => ?_
  rw [(hs.cast_of_event hp).1, hx, hs.eval_cast hx hp b]
  cases hvalue : (s.builder g).graph.eval b x.handle with
  | error failure => rfl
  | ok v =>
    rw [← hs.ty_of_eval hx (hs.given hp x (List.mem_singleton_self x)) hvalue]
    exact v.rebuild_components

/-- Integers are the same after they were converted to the other kind of integers and back. -/
theorem agree_cast_back (hs : s.Steady g held events) (hx : x.graph = g) (hkind : x.ty.kind.IsInteger)
    (htarget : target.kind.IsInteger) (hp : ⟨.cast x target, .ok (.node p)⟩ ∈ events)
    (hq : ⟨.cast p x.ty, .ok (.node q)⟩ ∈ events) : s.Agree q x := by
  obtain ⟨hpgraph, hconverts, _⟩ := hs.cast_of_event hp
  refine agree_of_eval fun b => ?_
  rw [(hs.cast_of_event hq).1, hpgraph, hx, hs.eval_cast (hpgraph.trans hx) hq b, hs.eval_cast hx hp b]
  cases hvalue : (s.builder g).graph.eval b x.handle with
  | error failure => rfl
  | ok v =>
    have hvty := hs.ty_of_eval hx (hs.given hp x (List.mem_singleton_self x)) hvalue
    rw [← hvty] at hconverts hkind ⊢
    obtain ⟨w, hw, _, hcomponents⟩ := Value.exists_cast hconverts
    have hback : ∀ c ∈ v.components, (c.convert target.kind).convert v.ty.kind = id c := by
      intro c hc
      rw [← v.kind_of_mem c hc] at hkind ⊢
      exact Scalar.convert_back hkind htarget
    show (Value.rebuild target v.components >>= fun w => Value.rebuild v.ty w.components) = .ok v
    rw [hw]
    refine Value.rebuild_eq_ok.2 ⟨?_, rfl, ?_⟩
    · rw [hcomponents, List.length_map, v.length_components]
    · rw [hcomponents, List.map_map]
      exact ((List.map_congr_left hback).trans (List.map_id _)).symm

end Steady

/-- What conversions commute with, and where they change nothing. -/
structure CastLaws (s : Session n) (g : Fin n) (events : List (Event n)) : Prop where
  /-- The components of a conversion are those of the vector, converted: their type has as many components as the
  accessor has letters. -/
  access : ∀ (x y p : Node n) (target : ValueType) (name : String), x.graph = g →
    ⟨.cast x target, .ok (.node p)⟩ ∈ events → ⟨.access x name, .ok (.node y)⟩ ∈ events →
    ∃ dim ty, Dim.width dim = name.length ∧ ValueType.ofKindDim? target.kind dim = some ty ∧
      s.Makes (.access p name) g ty ∧ s.Makes (.cast y ty) g ty ∧
      ∀ q r, ⟨.access p name, .ok (.node q)⟩ ∈ events → ⟨.cast y ty, .ok (.node r)⟩ ∈ events → s.Agree q r
  /-- What is constructed can be converted, or its arguments, each at its own width. -/
  construct : ∀ (source target : ValueType) (xs : List (Node n)) (y p : Node n),
    ⟨.construct g source (xs.map .node), .ok (.node y)⟩ ∈ events → ⟨.cast y target, .ok (.node p)⟩ ∈ events →
    (∀ x ∈ xs, ∃ ty, ValueType.ofKindDim? target.kind x.ty.dim = some ty ∧ s.Makes (.cast x ty) g ty) ∧
      ∀ parts, CastEach events target.kind xs parts →
        s.Makes (.construct g target (parts.map .node)) g target ∧
          ∀ q, ⟨.construct g target (parts.map .node), .ok (.node q)⟩ ∈ events → s.Agree p q
  self : ∀ x p : Node n, x.graph = g → ⟨.cast x x.ty, .ok (.node p)⟩ ∈ events → s.Agree p x
  /-- No integer is lost between the signed and the unsigned ones. -/
  back : ∀ (x : Node n) (target : ValueType), x.graph = g → x.ty.kind.IsInteger → target.kind.IsInteger →
    target.dim = x.ty.dim →
    s.Makes (.cast x target) g target ∧
      ∀ p, ⟨.cast x target, .ok (.node p)⟩ ∈ events →
        s.Makes (.cast p x.ty) g x.ty ∧ ∀ q, ⟨.cast p x.ty, .ok (.node q)⟩ ∈ events → s.Agree q x

namespace Steady

/-- In a session without assignments, conversions commute with accessors and constructors, and a conversion to the own
type, or of integers to the other kind of integers and back, is evaluated as what was converted; all this for all
values of the attributes, with the same errors.
-/
theorem cast_laws (hs : s.Steady g held events) : s.CastLaws g events where
  access x y p target name hx hp hy := by
    obtain ⟨hpgraph, hconverts, _⟩ := hs.cast_of_event hp
    obtain ⟨hygraph, hychecked⟩ := hs.checkAccess_of_event hy
    obtain ⟨ty, hty⟩ :=
      ValueType.exists_ofKindDim? (ValueType.kind_ne_bool_iff.2 hconverts.target_numeric) y.ty.dim
    obtain ⟨haccesses, hconverts'⟩ := hs.access_of_cast hp hy hty
    refine ⟨y.ty.dim, ty, (ValueType.checkAccess_iff.1 hychecked).width_eq_length, hty, ?_, ?_, ?_⟩
    · exact makes_access (hpgraph.trans hx) haccesses
    · exact makes_cast (hygraph.trans hx) hconverts'
    · exact fun q r hq hr => hs.agree_access_cast hx hp hy hty hq hr
  construct source target xs y p hy hp := by
    constructor
    · intro x hx
      obtain ⟨hgraph, hconverts⟩ := hs.converts_argument hy hp hx
      obtain ⟨ty, hty⟩ := ValueType.exists_ofKindDim?
        (ValueType.kind_ne_bool_iff.2 (hs.cast_of_event hp).2.1.target_numeric) x.ty.dim
      exact ⟨ty, hty, makes_cast hgraph (hconverts ty hty)⟩
    · intro parts hparts
      exact ⟨hs.makes_construct_cast hy hp hparts, fun q hq => hs.agree_cast_construct hy hp hparts hq⟩
  self x p hx hp := hs.agree_cast_self hx hp
  back x target hx hkind htarget hdim := by
    have hconverts : x.ty.Converts target := ValueType.converts_of_integers hkind htarget hdim
    refine ⟨makes_cast hx hconverts, fun p hp => ⟨?_, fun q hq => hs.agree_cast_back hx hkind htarget hp hq⟩⟩
    obtain ⟨hpgraph, _, hpty⟩ := hs.cast_of_event hp
    exact makes_cast (hpgraph.trans hx) (hpty ▸ hconverts.symm)

/-- The signed integers of an attribute are found again in the unsigned ones. -/
theorem cast_laws_attr :
    ∃ (s : Session 1) (held : List (Reply 1)) (events : List (Event 1)) (x p q : Node 1),
      s.Steady 0 held events ∧ x.ty = .ivec2 ∧ ⟨.cast x .uvec2, .ok (.node p)⟩ ∈ events ∧
        ⟨.cast p .ivec2, .ok (.node q)⟩ ∈ events ∧ s.Agree q x := by
  have hstart : (ofConfigs #v[Config.standard]).Steady (0 : Fin 1) [] [] := .start (.start _)
  obtain ⟨x, hx, hattr⟩ := hstart.attr .ivec2 "offset"
  have hconverts : x.ty.Converts .uvec2 := ValueType.convertsTo_iff.1 (by rw [hx]; rfl)
  obtain ⟨p, hp, hthere⟩ := hattr.decided (.of_nodes rfl (by simp [Call.nodes]) rfl rfl) rfl
    (decides_cast x .uvec2) ⟨hconverts, rfl⟩
  obtain ⟨q, _, hback⟩ := hthere.decided (.of_nodes rfl (by simp [Call.nodes]) rfl rfl) rfl
    (decides_cast p .ivec2) ⟨ValueType.convertsTo_iff.1 (by rw [hp]; rfl), rfl⟩
  refine ⟨_, _, _, x, p, q, hback, hx, by simp, by simp, ?_⟩
  have hkind : x.ty.kind.IsInteger := .inl (by rw [hx]; rfl)
  have hlaw := hback.cast_laws.back x .uvec2 (Subsingleton.elim _ _) hkind (.inr rfl) (by rw [hx]; rfl)
  exact (hlaw.2 p (by simp)).2 q (by rw [hx]; simp)

end Steady

end Session

end ShaderExpr
