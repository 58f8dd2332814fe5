import ShaderExpr.Proofs.Steady

/-!
# Taking vectors apart and putting them together

Constructors and accessors are inverse to each other.  A vector that is constructed from accessors whose letters run
through all its components is evaluated as the vector itself; and the components of what is constructed are those of the
arguments, in order, so that an accessor over the span of an argument is evaluated as the argument
(`Session.Steady.construct_inverse`).
-/

namespace ShaderExpr

variable {n : Nat}

theorem map_getElem?_range {α : Type} (xs : List α) : (List.range xs.length).map (xs[·]?) = xs.map some := by
  refine List.ext_getElem (by simp) fun i hi _ => ?_
  simp at hi
  simp [hi]

/-- A list is found again in a concatenation, from the place where it starts. -/
theorem map_getElem?_span {α : Type} (before xs after : List α) :
    (List.range' before.length xs.length).map ((before ++ (xs ++ after))[·]?) = xs.map some := by
  refine List.ext_getElem (by simp) fun i hi _ => ?_
  have hlt : i < xs.length := by simpa using hi
  simp [List.getElem?_append_right, List.getElem?_append_left hlt, hlt]

namespace Session

variable {g : Fin n} {s : Session n} {held : List (Reply n)} {events : List (Event n)}

theorem accepts_construct (s : Session n) {target : ValueType} {args : List (Operand n)} (hargs : Operand.AllOf g args)
    (hshape : target.Decomposes (args.map Operand.type)) (hunify : Operand.AllUnify target.kind args) :
    ∃ h, (s.perform (.construct g target args)).1 = .ok (.node ⟨g, h, target, false⟩) := by
  obtain ⟨sources, hcheck⟩ := Node.exists_checkConstruct_eq_ok hargs hshape hunify
  exact ⟨_, reply_of_check_ok (f := Reply.node) (Node.run_construct (s.builder g) g target args) hcheck⟩

/-- Nodes of the graph that make up the target are put together. -/
theorem makes_construct_nodes (s : Session n) {target : ValueType} {xs : List (Node n)}
    (howners : ∀ x ∈ xs, x.graph = g) (hshape : target.Decomposes (xs.map fun x => .typed x.ty)) :
    s.Makes (.construct g target (xs.map .node)) g target := by
  refine s.accepts_construct ?_ ?_ ?_
  · intro x hx
    obtain ⟨_, hz, heq⟩ := List.mem_map.1 hx
    cases heq
    exact howners x hz
  · rw [List.map_map]
    exact hshape
  · intro z hz
    obtain ⟨x, _, heq⟩ := List.mem_map.1 hz
    cases heq

theorem exists_checkConstruct_of_perform {target : ValueType} {args : List (Operand n)} {y : Node n}
    (h : (s.perform (.construct g target args)).1 = .ok (.node y)) :
    y.graph = g ∧ y.ty = target ∧ ∃ sources, Node.checkConstruct g target args = .ok sources := by
  have hrun := Node.run_construct (s.builder g) g target args
  obtain ⟨sources, hcheck⟩ := exists_of_on_checked hrun (Prod.ext h rfl)
  cases h.symm.trans (reply_of_check_ok (f := Reply.node) hrun hcheck)
  exact ⟨rfl, rfl, sources, hcheck⟩

end Session

theorem Dim.range_width_ne_nil (dim : Dim) : List.range dim.width ≠ [] := by
  rw [ne_eq, List.range_eq_nil]
  exact dim.width_pos.ne'

section

variable {source : ValueType} {names : List String} {parts : List (Node n)}

/-- Accessors have as many components together as their letters. -/
theorem sum_width_parts (hparts : List.Forall₂ (fun name p => source.checkAccess name = .ok p.ty) names parts) :
    (parts.map fun p => p.ty.dim.width).sum = (names.flatMap Selector.indices).length := by
  induction hparts with
  | nil => rfl
  | cons hpart _ ih =>
    rw [List.map_cons, List.sum_cons, ih, List.flatMap_cons, List.length_append, ValueType.length_indices hpart]

/-- A vector decomposes into accessors that run through all its components. -/
theorem ValueType.decomposes_parts (hnames : names.flatMap Selector.indices = List.range source.dim.width)
    (hparts : List.Forall₂ (fun name p => source.checkAccess name = .ok p.ty) names parts) :
    source.Decomposes (parts.map fun p => .typed p.ty) where
  vector := by
    cases hparts with
    | nil => exact absurd hnames.symm source.dim.range_width_ne_nil
    | cons hpart _ => exact (checkAccess_iff.1 hpart).vector
  suits := by
    refine List.forall_mem_map.2 fun p hp => ?_
    obtain ⟨_, _, hpart⟩ := exists_of_mem_forall₂ hparts hp
    exact ⟨(checkAccess_iff.1 hpart).not_matrix, (checkAccess_iff.1 hpart).kind⟩
  width := by
    have hsum := sum_width_parts hparts
    rw [hnames, List.length_range] at hsum
    rw [List.map_map]
    exact hsum

/-- What accessors of a value give, together. -/
theorem exists_values {v : Value} {h : Handle} {eval : Node n → Except EvalFailure Value}
    (hparts : List.Forall₂ (fun name p => v.ty.checkAccess name = .ok p.ty ∧ eval p = v.access h name p.ty)
      names parts) :
    ∃ values, parts.mapM eval = .ok values ∧
      (names.flatMap Selector.indices).map (v.components[·]?) = (values.flatMap Value.components).map some := by
  induction hparts with
  | nil => exact ⟨[], rfl, rfl⟩
  | @cons name p names parts hpart _ ih =>
    obtain ⟨values, hvalues, hcomponents⟩ := ih
    obtain ⟨w, hw, _, hpicked⟩ := Value.exists_access h hpart.1
    refine ⟨w :: values, ?_, ?_⟩
    · rw [List.mapM_cons, hpart.2, hw, hvalues]
      rfl
    · simp only [List.flatMap_cons, List.map_append, hpicked, hcomponents]

end

/-- An argument of a constructor contributes a value: what a node is evaluated to, or the value that a literal takes. -/
def Operand.Contributes (s : Session n) (b : Bindings) (kind : Kind) : Operand n → Value → Prop
  | node x, v => s.Evaluates b x v
  | literal x, v => x.unify? kind = some v

/-- As many components of the target's kind as the argument is wide. -/
structure Operand.Contribution (s : Session n) (b : Bindings) (target : ValueType) (arg : Operand n) (v : Value) :
    Prop where
  contributes : arg.Contributes s b target.kind v
  kind : v.ty.kind = target.kind
  width : v.components.length = arg.type.width
  ty : ∀ x, arg = .node x → v.ty = x.ty

theorem Operand.length_contributions {s : Session n} {b : Bindings} {target : ValueType} {args : List (Operand n)}
    {values : List Value} (h : List.Forall₂ (Contribution s b target) args values) :
    (values.flatMap Value.components).length = (args.map fun arg => arg.type.width).sum := by
  induction h with
  | nil => rfl
  | cons hfirst _ ih => rw [List.flatMap_cons, List.length_append, List.map_cons, List.sum_cons, hfirst.width, ih]

namespace Session.Steady

variable {g : Fin n} {s : Session n} {held : List (Reply n)} {events : List (Event n)}

/-- The target of a constructor that was accepted decomposes into the arguments. -/
theorem decomposes_of_event (hs : s.Steady g held events) {target : ValueType} {args : List (Operand n)} {y : Node n}
    (he : ⟨.construct g target args, .ok (.node y)⟩ ∈ events) : target.Decomposes (args.map Operand.type) := by
  obtain ⟨t, ht⟩ := hs.performed he
  obtain ⟨_, _, sources, hcheck⟩ := exists_checkConstruct_of_perform ht
  exact ValueType.constructs_iff.1 (ValueType.checkArguments_eq_ok.1 (Node.checkConstruct_eq_ok.1 hcheck).2.1)

/-- The arguments of a constructor that was accepted fill its target. -/
theorem construct_of_event (hs : s.Steady g held events) {target : ValueType} {args : List (Operand n)} {y : Node n}
    (he : ⟨.construct g target args, .ok (.node y)⟩ ∈ events) :
    y.graph = g ∧ y.ty = target ∧ Operand.AllOf g args ∧ ∀ arg ∈ args, arg.type.Suits target := by
  obtain ⟨t, ht⟩ := hs.performed he
  obtain ⟨hgraph, hty, sources, hcheck⟩ := exists_checkConstruct_of_perform ht
  obtain ⟨howners, _⟩ := Node.checkConstruct_eq_ok.1 hcheck
  have hsuits := (hs.decomposes_of_event he).suits
  exact ⟨hgraph, hty, Operand.checkOwners_eq_ok_iff_allOf.1 howners, List.forall_mem_map.1 hsuits⟩

section

variable {x : Node n} {names : List String} {parts : List (Node n)}

private theorem parts_checked (hs : s.Steady g held events)
    (hparts : List.Forall₂ (fun name p => ⟨.access x name, .ok (.node p)⟩ ∈ events) names parts) :
    List.Forall₂ (fun name p => x.ty.checkAccess name = .ok p.ty) names parts :=
  hparts.imp fun _ _ he => (hs.checkAccess_of_event he).2

private theorem held_of_parts (hs : s.Steady g held events)
    (hnames : names.flatMap Selector.indices = List.range x.ty.dim.width)
    (hparts : List.Forall₂ (fun name p => ⟨.access x name, .ok (.node p)⟩ ∈ events) names parts) :
    ∃ r ∈ held, x ∈ r.nodes := by
  cases hparts with
  | nil => exact absurd hnames.symm x.ty.dim.range_width_ne_nil
  | cons he _ => exact hs.given he x (List.mem_singleton_self x)

theorem accepts_parts (hs : s.Steady g held events) (hx : x.graph = g)
    (hnames : names.flatMap Selector.indices = List.range x.ty.dim.width)
    (hparts : List.Forall₂ (fun name p => ⟨.access x name, .ok (.node p)⟩ ∈ events) names parts) :
    ∃ h, (s.perform (.construct g x.ty (parts.map .node))).1 = .ok (.node ⟨g, h, x.ty, false⟩) := by
  refine s.makes_construct_nodes ?_ (ValueType.decomposes_parts hnames (hs.parts_checked hparts))
  intro p hp
  obtain ⟨_, _, he⟩ := exists_of_mem_forall₂ hparts hp
  exact (hs.checkAccess_of_event he).1.trans hx

/-- The parts of a vector put together are evaluated as the vector. -/
theorem agree_parts (hs : s.Steady g held events) (hx : x.graph = g)
    (hnames : names.flatMap Selector.indices = List.range x.ty.dim.width)
    (hparts : List.Forall₂ (fun name p => ⟨.access x name, .ok (.node p)⟩ ∈ events) names parts) {y : Node n}
    (he : ⟨.construct g x.ty (parts.map .node), .ok (.node y)⟩ ∈ events) : s.Agree x y := by
  refine agree_of_eval fun b => ?_
  rw [hx, (hs.construct_of_event he).1]
  have hevals := hparts.imp fun _ _ he => hs.eval_access hx he b
  rw [hs.eval_construct_nodes he b]
  cases hvalue : (s.builder g).graph.eval b x.handle with
  | error failure =>
    -- the first part fails as the vector does
    simp only [hvalue] at hevals
    cases hevals with
    | nil => exact absurd hnames.symm x.ty.dim.range_width_ne_nil
    | cons hfirst _ =>
      rw [List.mapM_cons, hfirst]
      rfl
  | ok v =>
    simp only [hvalue] at hevals
    have hty := hs.ty_of_eval hx (hs.held_of_parts hnames hparts) hvalue
    have hchecked := hs.parts_checked hparts
    rw [← hty] at hchecked
    obtain ⟨values, hvalues, hcomponents⟩ := exists_values (hchecked.mp (fun _ _ => And.intro) hevals)
    have hmatrix := ValueType.isMatrix_of_isVector (ValueType.decomposes_parts hnames (hs.parts_checked hparts)).vector
    -- together the parts pick all components
    have hall : values.flatMap Value.components = v.components := by
      refine map_some_inj (hcomponents.symm.trans ?_)
      rw [hnames, ← ValueType.componentCount_eq_width hmatrix, ← hty, ← v.length_components]
      exact map_getElem?_range v.components
    rw [hvalues]
    show Except.ok v = Value.rebuild x.ty (values.flatMap Value.components)
    rw [hall, ← hty, v.rebuild_components]

end

/-! ### Arguments from a vector -/

section

variable {target : ValueType} {args : List (Operand n)} {y : Node n} {b : Bindings}

/-- What the arguments of an accepted constructor are evaluated to fills its target. -/
private theorem contribution (hs : s.Steady g held events)
    (he : ⟨.construct g target args, .ok (.node y)⟩ ∈ events) {arg : Operand n} (harg : arg ∈ args) {v : Value}
    (hv : arg.outcome? (s.builder g).graph b target.kind = some (.ok v)) : arg.Contribution s b target v := by
  obtain ⟨_, _, howners, hsuits⟩ := hs.construct_of_event he
  specialize hsuits arg harg
  cases arg with
  | node z =>
    have hz : z.graph = g := howners z harg
    have heval := Option.some.inj hv
    have hty := hs.ty_of_eval hz (hs.given he z (List.mem_flatMap.2 ⟨_, harg, List.mem_singleton_self z⟩)) heval
    refine ⟨evaluates_iff.2 (hz ▸ heval), ?_, ?_, ?_⟩
    · rw [hty]
      exact hsuits.2
    · rw [v.length_components, hty, ValueType.componentCount_eq_width hsuits.1]
      rfl
    · rintro _ ⟨⟩
      exact hty
  | literal x =>
    obtain ⟨value, hvalue, heq⟩ := Option.map_eq_some_iff.1 hv
    cases heq
    have hty := x.ty_of_unify? hvalue
    refine ⟨hvalue, ?_, ?_, nofun⟩
    · rw [hty]
      cases target.kind <;> rfl
    · rw [v.length_components, hty]
      cases target.kind <;> rfl

private theorem contributions (hs : s.Steady g held events)
    (he : ⟨.construct g target args, .ok (.node y)⟩ ∈ events) {values : List Value}
    (hvalues : List.Forall₂ (fun arg v => arg.outcome? (s.builder g).graph b target.kind = some (.ok v)) args values) :
    List.Forall₂ (Operand.Contribution s b target) args values := by
  have hmem := (List.forall₂_and_left args values).2 ⟨fun _ harg => harg, hvalues⟩
  exact hmem.imp fun _ _ h => hs.contribution he h.1 h.2

/-- What the arguments of an accepted constructor are evaluated to is put together without a change. -/
theorem exists_rebuild_of_construct (hs : s.Steady g held events)
    (he : ⟨.construct g target args, .ok (.node y)⟩ ∈ events) {values : List Value}
    (hvalues : List.Forall₂ (fun arg v => arg.outcome? (s.builder g).graph b target.kind = some (.ok v)) args values) :
    ∃ w, Value.rebuild target (values.flatMap Value.components) = .ok w ∧ w.ty = target ∧
      w.components = values.flatMap Value.components := by
  have hdecomposes := hs.decomposes_of_event he
  have hcontributions := hs.contributions he hvalues
  refine Value.exists_rebuild target _ ?_ ?_
  · rw [Operand.length_contributions hcontributions,
      ValueType.componentCount_eq_width (ValueType.isMatrix_of_isVector hdecomposes.vector), ← hdecomposes.width,
      List.map_map]
    rfl
  · intro c hc
    obtain ⟨v, hv, hc⟩ := List.mem_flatMap.1 hc
    obtain ⟨arg, _, hcontribution⟩ := exists_of_mem_forall₂ hcontributions hv
    rw [v.kind_of_mem c hc, hcontribution.kind]

/-- What is constructed has the components of the arguments, in order. -/
theorem components_of_construct (hs : s.Steady g held events)
    (he : ⟨.construct g target args, .ok (.node y)⟩ ∈ events) {w : Value} (hw : s.Evaluates b y w) :
    ∃ values, List.Forall₂ (Operand.Contribution s b target) args values ∧ w.ty = target ∧
      w.components = values.flatMap Value.components := by
  obtain ⟨outcomes, houtcomes, heval⟩ := hs.eval_construct he b
  rw [evaluates_iff, (hs.construct_of_event he).1, heval] at hw
  obtain ⟨values, hvalues, hrebuild⟩ := exists_of_bind_ok hw
  have hargs : List.Forall₂ (fun arg v => arg.outcome? (s.builder g).graph b target.kind = some (.ok v)) args
      values := by
    refine forall₂_trans ?_ (mapM_eq_some.1 houtcomes) (mapM_eq_ok.1 hvalues)
    rintro arg _ v harg rfl
    exact harg
  obtain ⟨w', hw', hty, hcomponents⟩ := hs.exists_rebuild_of_construct he hargs
  cases hw'.symm.trans hrebuild
  exact ⟨values, hs.contributions he hargs, hty, hcomponents⟩

/-- An accessor over the span of an argument is evaluated as the argument. -/
theorem access_span (hs : s.Steady g held events) (he : ⟨.construct g target args, .ok (.node y)⟩ ∈ events) {w : Value}
    (hw : s.Evaluates b y w) {before after : List (Operand n)} {z p : Node n} {name : String}
    (hargs : args = before ++ .node z :: after) (hp : ⟨.access y name, .ok (.node p)⟩ ∈ events)
    (hspan : Selector.indices name =
      List.range' (before.map fun arg => arg.type.width).sum z.ty.dim.width) :
    ∃ v, s.Evaluates b z v ∧ s.Evaluates b p v := by
  subst hargs
  obtain ⟨hy, hyty, _, hsuits⟩ := hs.construct_of_event he
  have hzsuits : z.ty.isMatrix = false ∧ z.ty.kind = target.kind :=
    hsuits (.node z) (List.mem_append_right _ List.mem_cons_self)
  obtain ⟨hpgraph, hchecked⟩ := hs.checkAccess_of_event hp
  have haccesses := ValueType.checkAccess_iff.1 hchecked
  obtain ⟨values, hvalues, hwty, hcomponents⟩ := hs.components_of_construct he hw
  obtain ⟨vbefore, rest, rfl, hbefore, hrest⟩ := exists_forall₂_append hvalues
  obtain ⟨v, vafter, hz, _, rfl⟩ := List.forall₂_cons_left_iff.1 hrest
  -- the accessor picks what the argument has contributed
  have hpicked : (Selector.indices name).map (w.components[·]?) = v.components.map some := by
    have hspan' : Selector.indices name =
        List.range' (vbefore.flatMap Value.components).length v.components.length := by
      rw [hspan, Operand.length_contributions hbefore, hz.width]
      rfl
    rw [hspan', hcomponents, List.flatMap_append, List.flatMap_cons]
    exact map_getElem?_span _ _ _
  have hzty := hz.ty z rfl
  have hpty : p.ty = v.ty := by
    rw [hzty]
    refine ValueType.eq_of_kind_of_width haccesses.not_matrix hzsuits.1 ?_ ?_
    · rw [haccesses.kind, hyty]
      exact hzsuits.2.symm
    · rw [← ValueType.length_indices hchecked, hspan, List.length_range']
  have hwy := evaluates_iff.1 hw
  rw [hy] at hwy
  refine ⟨v, hz.contributes, evaluates_iff.2 ?_⟩
  rw [hpgraph, hy, hs.eval_access hy hp b, hwy, hpty]
  refine Value.access_eq_ok _ ?_ hpicked
  rw [hwty, ← hyty, ← hpty]
  exact hchecked

end

/-- In a session without assignments, a vector that is constructed from accessors, whose letters of either alphabet run
through all its components, is evaluated as the vector.  What is constructed has the components of the arguments, in
order, and an accessor over the span of one of them is evaluated as the argument.
-/
theorem construct_inverse (hs : s.Steady g held events) :
    (∀ (x : Node n) (names : List String) (parts : List (Node n)), x.graph = g →
      names.flatMap Selector.indices = List.range x.ty.dim.width →
      List.Forall₂ (fun name p => ⟨.access x name, .ok (.node p)⟩ ∈ events) names parts →
      (∃ h, (s.perform (.construct g x.ty (parts.map .node))).1 = .ok (.node ⟨g, h, x.ty, false⟩)) ∧
        ∀ y, ⟨.construct g x.ty (parts.map .node), .ok (.node y)⟩ ∈ events → s.Agree x y) ∧
    ∀ (target : ValueType) (args : List (Operand n)) (y : Node n) (b : Bindings) (w : Value),
      ⟨.construct g target args, .ok (.node y)⟩ ∈ events → s.Evaluates b y w →
      (∃ values, List.Forall₂ (Operand.Contributes s b target.kind) args values ∧
        w.components = values.flatMap Value.components) ∧
        ∀ (before after : List (Operand n)) (z p : Node n) (name : String), args = before ++ .node z :: after →
          ⟨.access y name, .ok (.node p)⟩ ∈ events →
          Selector.indices name = List.range' (before.map fun arg => arg.type.width).sum z.ty.dim.width →
          ∃ v, s.Evaluates b z v ∧ s.Evaluates b p v := by
  constructor
  · intro x names parts hx hnames hparts
    exact ⟨hs.accepts_parts hx hnames hparts, fun y he => hs.agree_parts hx hnames hparts he⟩
  · intro target args y b w he hw
    refine ⟨?_, fun before after z p name hargs hp hspan => hs.access_span he hw hargs hp hspan⟩
    obtain ⟨values, hvalues, _, hcomponents⟩ := hs.components_of_construct he hw
    exact ⟨values, hvalues.imp fun _ _ h => h.contributes, hcomponents⟩

/-- The two components of an attribute are put together again, one by its place and one by its color. -/
theorem construct_inverse_attr :
    ∃ (s : Session 1) (held : List (Reply 1)) (events : List (Event 1)) (x p q y : Node 1),
      s.Steady 0 held events ∧ x.ty = .vec2 ∧ ⟨.access x "x", .ok (.node p)⟩ ∈ events ∧
        ⟨.access x "g", .ok (.node q)⟩ ∈ events ∧ ⟨.construct 0 .vec2 [.node p, .node q], .ok (.node y)⟩ ∈ events ∧
        s.Agree x y := by
  have hstart : (ofConfigs #v[Config.standard]).Steady (0 : Fin 1) [] [] := .start (.start _)
  obtain ⟨x, hx, hattr⟩ := hstart.attr .vec2 "uv"
  have hpicks : ∀ name ∈ ["x", "g"], x.ty.Accesses name .float := by
    rw [hx]
    exact fun name hname => ValueType.checkAccess_iff.1 (by revert name; decide)
  obtain ⟨p, _, hfirst⟩ := hattr.decided (.of_nodes rfl (by simp [Call.nodes]) rfl rfl) rfl
    (decides_access x "x") (hpicks _ (by simp))
  obtain ⟨q, _, hsecond⟩ := hfirst.decided (.of_nodes rfl (by simp [Call.nodes]) rfl rfl) rfl
    (decides_access x "g") (hpicks _ (by simp))
  have hnames : ["x", "g"].flatMap Selector.indices = List.range x.ty.dim.width := by
    rw [hx]
    decide
  have hgraph : x.graph = 0 := Subsingleton.elim _ _
  obtain ⟨⟨h, hy⟩, _⟩ := hsecond.construct_inverse.1 x _ [p, q] hgraph hnames (.cons (by simp) (.cons (by simp) .nil))
  rw [hx] at hy
  have hthird := hsecond.made (.of_nodes rfl (by simp [Call.nodes, Operand.nodes]) rfl rfl) rfl hy
  refine ⟨_, _, _, x, p, q, _, hthird, hx, by simp, by simp, List.mem_cons_self, ?_⟩
  refine (hthird.construct_inverse.1 x _ [p, q] hgraph hnames (.cons (by simp) (.cons (by simp) .nil))).2 _ ?_
  rw [hx]
  exact List.mem_cons_self

end Session.Steady

end ShaderExpr
