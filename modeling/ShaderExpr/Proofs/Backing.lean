import ShaderExpr.Proofs.Legality
import ShaderExpr.Proofs.Tables

/-!
# Calls with backed nodes

A node is backed by a graph if its handle has its type there, and names a variable if the node says so.
`Build.Meets` says that a call takes steps only (`Builder.Step`), and that its answer has a property of the
graph they leave if it is accepted.  Every call that is given backed nodes meets a postcondition on its
answer: the nodes that it hands out are backed.
-/

namespace ShaderExpr

variable {n : Nat} {b : Builder} {graph graph' : Graph} {g : Fin n}

/-- The graph has the vertex that a node stands for. -/
structure Node.Backed (x : Node n) (graph : Graph) : Prop where
  hasType : graph.HasType x.handle x.ty
  exists_var : x.isVariable = true → ∃ init, graph.vertex? x.handle = some (.var x.ty init)

/-- The graph has the resource of a texture, and the texture is read at texture coordinates of its own graph. -/
structure Texture.Backed (t : Texture n) (graph : Graph) : Prop where
  texel : t.texel.Backed graph
  uv : t.uv.Backed graph
  uv_graph : t.uv.graph = t.texel.graph
  uv_ty : t.uv.ty = .vec2
  resource : graph.vertex? t.resource = some (.texture t.info.kind t.info)

/-- A node among the operands is backed if it belongs to the graph at all. -/
def Operand.Backed (g : Fin n) (graph : Graph) (y : Operand n) : Prop :=
  ∀ x, y = .node x → x.graph = g → x.Backed graph

namespace Node.Backed

variable {x : Node n}

theorem mono (hx : x.Backed graph) (hg : graph.Grows graph') : x.Backed graph' where
  hasType := hx.hasType.mono hg
  exists_var hv := by
    obtain ⟨init, hinit⟩ := hx.exists_var hv
    exact ⟨init, hg.vertex_eq hinit nofun⟩

theorem toExpr (hx : x.Backed graph) : Node.Backed { x with isVariable := false } graph :=
  ⟨hx.hasType, nofun⟩

/-- A node is backed by the graph in which its vertex was recorded last. -/
theorem nextIn (b : Builder) (g : Fin n) {v : Vertex} {ty : ValueType} (hty : v.ty = ty)
    (hv : v.isTexture = false) :
    (Node.nextIn b g ty).Backed (b.recorded v).graph :=
  ⟨hty ▸ .of_next b.graph hv, nofun⟩

end Node.Backed

theorem Operand.Backed.literal (y : Literal) : (Operand.literal y).Backed g graph := by
  intro x hx
  cases hx

theorem Texture.Backed.mono {t : Texture n} (ht : t.Backed graph) (hg : graph.Grows graph') :
    t.Backed graph' where
  texel := ht.texel.mono hg
  uv := ht.uv.mono hg
  uv_graph := ht.uv_graph
  uv_ty := ht.uv_ty
  resource := hg.vertex_eq ht.resource nofun

namespace Build

variable {α β σ : Type} {post : α → Graph → Prop}

/-- A call takes steps, and its answer has a property of the graph that they leave. -/
def Meets (call : Build α) (b : Builder) (post : α → Graph → Prop) : Prop :=
  b.Steps (call.run b).2 ∧ ∀ a, (call.run b).1 = .ok a → post a (call.run b).2.graph

namespace Meets

theorem accepted {call : Build α} {a : α} {b' : Builder} (hrun : call.run b = (.ok a, b')) (hsteps : b.Steps b')
    (hpost : post a b'.graph) : call.Meets b post := by
  unfold Meets
  rw [hrun]
  refine ⟨hsteps, ?_⟩
  intro a' ha
  cases ha
  exact hpost

theorem rejected {call : Build α} {e : Error} {b' : Builder} (hrun : call.run b = (.error e, b'))
    (hsteps : b.Steps b') : call.Meets b post := by
  unfold Meets
  rw [hrun]
  exact ⟨hsteps, nofun⟩

/-- A call that a check decides meets what it meets when it is accepted. -/
theorem checked {call : Build α} {check : Except Rejection σ} {after : σ → α × Builder}
    (hrun : call.run b = Build.checked b check after)
    (hok : ∀ s, check = .ok s → b.Steps (after s).2 ∧ post (after s).1 (after s).2.graph) :
    call.Meets b post := by
  cases check with
  | ok s => exact accepted hrun (hok s rfl).1 (hok s rfl).2
  | error reason => exact rejected hrun (.single (.note (.rejected reason)))

theorem lift {draft : Draft α} (hsteps : b.Steps (draft.run b).2)
    (hpost : post (draft.run b).1 (draft.run b).2.graph) :
    Meets (liftM draft) b post :=
  accepted rfl hsteps hpost

theorem map {call : Build α} {f : α → β} {post : β → Graph → Prop} (h : call.Meets b fun a => post (f a)) :
    Meets (call >>= fun a => pure (f a)) b post := by
  unfold Meets at h ⊢
  rw [run_bind]
  rcases hrun : call.run b with ⟨e | a, b'⟩
  · rw [hrun] at h
    exact ⟨h.1, nofun⟩
  · rw [hrun] at h
    refine ⟨h.1, ?_⟩
    intro a' ha
    cases ha
    exact h.2 a rfl

/-- A call that starts with a check meets what the rest meets. -/
theorem accept_bind {check : Except Rejection σ} {f : σ → Build α}
    (hok : ∀ s, check = .ok s → (f s).Meets b post) : Meets (accept check >>= f) b post := by
  unfold Meets
  rw [run_bind, run_accept]
  cases check with
  | ok s => exact hok s rfl
  | error reason => exact ⟨.single (.note (.rejected reason)), nofun⟩

/-- A call that meets a postcondition and is accepted returns. -/
theorem returns {call : Build α} {a : α} {b' : Builder} (h : call.Meets b post)
    (hrun : call.run b = (.ok a, b')) :
    call.Returns b fun a' b'' => a' = a ∧ b.Steps b'' ∧ post a b''.graph := by
  unfold Meets at h
  rw [hrun] at h
  exact ⟨a, b', hrun, rfl, h.1, h.2 a rfl⟩

theorem of_returns {call : Build α} (h : call.Returns b fun a b' => b.Steps b' ∧ post a b'.graph) :
    call.Meets b post := by
  obtain ⟨a, b', hrun, hsteps, hpost⟩ := h
  exact accepted hrun hsteps hpost

end Meets

theorem meets_setUniform (h : Handle) (value : Value) : (setUniform h value).Meets b fun _ _ => True := by
  have hrun := run_setUniform b h value
  cases hset : b.graph.setUniform h value with
  | ok graph =>
    rw [hset] at hrun
    exact .accepted hrun ((Builder.Steps.single (.note _)).tail (.setUniform hset)) trivial
  | error e =>
    rw [hset] at hrun
    cases e with
    | typeMismatch op types => exact .rejected hrun (.single (.note _))
    | _ => exact .rejected hrun (.refl b)

theorem meets_evaluate (h : Handle) (bindings : Bindings) : (evaluate h bindings).Meets b fun _ _ => True := by
  have hrun := run_evaluate b h bindings
  cases hvalue : b.graph.evaluate bindings h with
  | ok value =>
    rw [hvalue] at hrun
    exact .accepted hrun (.refl b) trivial
  | error e =>
    rw [hvalue] at hrun
    exact .rejected hrun (.refl b)

end Build

/-- The type that an accepted operand has once it is recorded. -/
def Source.HasType (graph : Graph) : Source → ValueType → Prop
  | vertex h, ty => graph.HasType h ty
  | constant value, ty => value.ty = ty

/-- The type that an operand is recorded with where a kind is asked for. -/
def Operand.recordedType (kind : Kind) : Operand n → ValueType
  | node x => x.ty
  | literal _ => kind.scalarType

namespace Source

theorem HasType.mono {source : Source} {ty : ValueType} (hs : source.HasType graph ty)
    (hg : graph.Grows graph') :
    source.HasType graph' ty := by
  cases source with
  | vertex h => exact Graph.HasType.mono hs hg
  | constant value => exact hs

theorem steps_recordedIn (source : Source) (b : Builder) : b.Steps (source.recordedIn b) := by
  cases source with
  | vertex h => exact .refl b
  | constant value => exact .single (.record (.constant value))

theorem HasType.handleIn {source : Source} {ty : ValueType} (hs : source.HasType b.graph ty) :
    (source.recordedIn b).graph.HasType (source.handleIn b) ty := by
  cases source with
  | vertex h => exact hs
  | constant value => exact hs ▸ .of_next b.graph rfl

theorem steps_allRecordedIn (sources : List Source) (b : Builder) : b.Steps (allRecordedIn b sources) := by
  induction sources generalizing b with
  | nil => exact .refl b
  | cons source sources ih => exact (source.steps_recordedIn b).trans (ih (source.recordedIn b))

/-- Operands that are recorded in order have their types in the end. -/
theorem hasType_handlesIn {sources : List Source} {types : List ValueType}
    (hs : List.Forall₂ (HasType b.graph) sources types) :
    List.Forall₂ (allRecordedIn b sources).graph.HasType (handlesIn b sources) types := by
  induction sources generalizing b types with
  | nil =>
    cases hs
    exact .nil
  | cons source sources ih =>
    cases hs with
    | cons hty hs =>
      -- constants that are recorded later leave the earlier operands as they are
      refine .cons ?_ (ih (hs.imp fun _ _ ht => ht.mono (source.steps_recordedIn b).grows))
      exact hty.handleIn.mono (steps_allRecordedIn sources (source.recordedIn b)).grows

end Source

theorem exists_of_bind_ok {ε α β : Type} {check : Except ε α} {f : α → Except ε β} {y : β}
    (h : (check >>= f) = .ok y) : ∃ x, check = .ok x ∧ f x = .ok y := by
  cases check with
  | error e => exact absurd h nofun
  | ok x => exact ⟨x, rfl, h⟩

namespace Operand

variable {y : Operand n}

/-- Whether an operand has the type of a variable, or is a literal and the variable a scalar. -/
def fits (ty : ValueType) : Operand n → Bool
  | node x => x.ty = ty
  | literal _ => ty.isScalar

theorem fits_iff (y : Operand n) (ty : ValueType) : y.fits ty = true ↔ y.recordedType ty.kind = ty := by
  cases y with
  | node x => exact decide_eq_true_iff
  | literal x => exact ValueType.scalarType_eq_self.symm

theorem checkOwner_node_eq_ok {x : Node n} : (node x).checkOwner g = .ok () ↔ x.graph = g := by
  unfold checkOwner
  dsimp only
  split
  · rename_i hg
    exact iff_of_true rfl hg
  · rename_i hg
    exact iff_of_false nofun hg

theorem checkOwners_eq_ok {args : List (Operand n)} :
    checkOwners g args = .ok () ↔ ∀ y ∈ args, y.checkOwner g = .ok () := by
  induction args with
  | nil => exact iff_of_true rfl nofun
  | cons y args ih =>
    rw [List.forall_mem_cons, ← ih, checkOwners]
    cases y.checkOwner g with
    | error reason => exact iff_of_false nofun fun h => absurd h.1 nofun
    | ok _ => exact ⟨fun h => ⟨rfl, h⟩, fun h => h.2⟩

theorem source_hasType {kind : Kind} {source : Source} (hy : y.Backed g graph) (howner : y.checkOwner g = .ok ())
    (hs : y.source? kind = some source) : source.HasType graph (y.recordedType kind) := by
  cases y with
  | node x =>
    cases Option.some.inj hs
    exact (hy x rfl (checkOwner_node_eq_ok.1 howner)).hasType
  | literal x =>
    obtain ⟨value, hvalue, rfl⟩ := Option.map_eq_some_iff.1 hs
    exact x.ty_of_unify? hvalue

/-- The operands of a constructor, accepted one by one. -/
theorem sources_hasType {kind : Kind} {args : List (Operand n)} {sources : List Source}
    (hargs : ∀ y ∈ args, y.Backed g graph) (howners : ∀ y ∈ args, y.checkOwner g = .ok ())
    (hs : args.mapM (source? kind) = some sources) :
    List.Forall₂ (Source.HasType graph) sources (args.map (recordedType kind)) := by
  rw [mapM_eq_some] at hs
  induction hs with
  | nil => exact .nil
  | cons hsource _ ih =>
    rw [List.forall_mem_cons] at hargs howners
    exact .cons (source_hasType hargs.1 howners.1 hsource) (ih hargs.2 howners.2)

/-- A constructor counts a literal as the scalar that it is recorded as. -/
theorem checkArguments_recordedType {target : ValueType} {args : List (Operand n)} :
    target.checkArguments ((args.map (recordedType target.kind)).map .typed) = .ok () ↔
      target.checkArguments (args.map type) = .ok () := by
  have hwidth : ∀ y : Operand n, target.argumentWidth? (.typed (y.recordedType target.kind)) =
      target.argumentWidth? y.type := by
    intro y
    cases y with
    | node x => rfl
    | literal x => exact target.argumentWidth?_scalarType
  have hwidths : ((args.map (recordedType target.kind)).map .typed).mapM target.argumentWidth? =
      (args.map type).mapM target.argumentWidth? := by
    rw [List.map_map, List.mapM_map, List.mapM_map]
    exact congrArg (fun f => args.mapM f) (funext hwidth)
  rw [ValueType.checkArguments_eq_ok, ValueType.checkArguments_eq_ok]
  unfold ValueType.constructs
  rw [hwidths]

end Operand

/-! ### Calls on nodes -/

namespace Node

/-- A node of a graph that backs it. -/
def BackedBy (g : Fin n) (x : Node n) (graph : Graph) : Prop :=
  x.graph = g ∧ x.Backed graph

variable {x : Node n} {y : Operand n}

theorem checkBinary_eq_ok {op : BinaryOp} {ty : ValueType} {source : Source} :
    checkBinary op x y = .ok (ty, source) ↔
      y.checkOwner x.graph = .ok () ∧ op.check x.ty y.type = .ok ty ∧ y.source? x.ty.kind = some source := by
  constructor
  · intro h
    obtain ⟨_, howner, h⟩ := exists_of_bind_ok h
    obtain ⟨ty', hty, h⟩ := exists_of_bind_ok h
    split at h
    · rename_i source' hsource
      cases h
      exact ⟨howner, hty, hsource⟩
    · exact absurd h nofun
  · rintro ⟨howner, hty, hsource⟩
    unfold checkBinary
    rw [howner, hty, hsource]
    rfl

/-- What an operator records is listed with the type that its right operand is recorded with. -/
theorem mem_rules_of_checkBinary {op : BinaryOp} {ty : ValueType} {source : Source}
    (h : checkBinary op x y = .ok (ty, source)) :
    ⟨x.ty, .typed (y.recordedType x.ty.kind), ty⟩ ∈ op.rules := by
  have hrule := BinaryOp.mem_rules_of_check (checkBinary_eq_ok.1 h).2.1
  cases y with
  | node z => exact hrule
  | literal z => exact BinaryOp.typed_of_literal hrule

theorem meets_binary (op : BinaryOp) (hx : x.Backed b.graph) (hy : y.Backed x.graph b.graph) :
    (x.binary op y).Meets b (BackedBy x.graph) := by
  refine .checked (run_binary b x y op) fun (ty, source) hcheck => ?_
  obtain ⟨howner, _, hsource⟩ := checkBinary_eq_ok.1 hcheck
  have hsteps := source.steps_recordedIn b
  have hright := (Operand.source_hasType hy howner hsource).handleIn
  have hlegal := Vertex.Legal.binary (hx.hasType.mono hsteps.grows) hright (mem_rules_of_checkBinary hcheck)
  exact ⟨hsteps.tail (.record hlegal), rfl, .nextIn _ _ rfl rfl⟩

theorem meets_oneMinus (hx : x.Backed b.graph) : x.oneMinus.Meets b (BackedBy x.graph) := by
  refine .checked (run_oneMinus b x) fun ty hcheck => ?_
  have hlegal := Vertex.Legal.oneMinus hx.hasType (ValueType.mem_oneMinusRules_of_check hcheck)
  exact ⟨.single (.record hlegal), rfl, .nextIn _ _ rfl rfl⟩

theorem meets_access (name : String) (hx : x.Backed b.graph) : (x.access name).Meets b (BackedBy x.graph) := by
  refine .checked (run_access b x name) fun ty hcheck => ?_
  exact ⟨.single (.record (.component hx.hasType hcheck)), rfl, .nextIn _ _ rfl rfl⟩

theorem meets_cast (target : ValueType) (hx : x.Backed b.graph) :
    (x.cast target).Meets b (BackedBy x.graph) := by
  refine .checked (run_cast b x target) fun _ hcheck => ?_
  exact ⟨.single (.record (.cast hx.hasType hcheck)), rfl, .nextIn _ _ rfl rfl⟩

theorem checkConstruct_eq_ok {target : ValueType} {args : List (Operand n)} {sources : List Source} :
    checkConstruct g target args = .ok sources ↔
      Operand.checkOwners g args = .ok () ∧ target.checkArguments (args.map Operand.type) = .ok () ∧
        args.mapM (Operand.source? target.kind) = some sources := by
  constructor
  · intro h
    obtain ⟨_, howners, h⟩ := exists_of_bind_ok h
    obtain ⟨_, hshape, h⟩ := exists_of_bind_ok h
    split at h
    · rename_i sources' hsources
      cases h
      exact ⟨howners, hshape, hsources⟩
    · exact absurd h nofun
  · rintro ⟨howners, hshape, hsources⟩
    unfold checkConstruct
    dsimp only
    rw [howners, hshape, hsources]
    rfl

theorem meets_construct (target : ValueType) {args : List (Operand n)} (hargs : ∀ y ∈ args, y.Backed g b.graph) :
    (construct g target args).Meets b (BackedBy g) := by
  refine .checked (run_construct b g target args) fun sources hcheck => ?_
  obtain ⟨howners, hshape, hsources⟩ := checkConstruct_eq_ok.1 hcheck
  have hrecorded := Operand.sources_hasType hargs (Operand.checkOwners_eq_ok.1 howners) hsources
  have hlegal := Vertex.Legal.construct (Source.hasType_handlesIn hrecorded)
    (Operand.checkArguments_recordedType.2 hshape)
  exact ⟨(Source.steps_allRecordedIn sources b).tail (.record hlegal), rfl, .nextIn _ _ rfl rfl⟩

/-- What can be assigned to a variable. -/
theorem checkAssign_eq (hvariable : x.isVariable = true) :
    checkAssign x y = y.checkOwner x.graph >>= fun _ =>
      match y.fits x.ty, y.source? x.ty.kind with
      | true, some source => return source
      | _, _ => throw (.operands .assign [.typed x.ty, y.type]) := by
  unfold checkAssign
  rw [if_pos hvariable]
  cases y <;> rfl

/-- What an assignment binds has the type of the variable. -/
theorem checkAssign_eq_ok {source : Source} :
    checkAssign x y = .ok source ↔
      x.isVariable = true ∧ y.checkOwner x.graph = .ok () ∧ y.recordedType x.ty.kind = x.ty ∧
        y.source? x.ty.kind = some source := by
  by_cases hvariable : x.isVariable = true
  · rw [checkAssign_eq hvariable, ← y.fits_iff]
    constructor
    · intro h
      obtain ⟨_, howner, h⟩ := exists_of_bind_ok h
      split at h
      · rename_i source' hfits hsource
        cases h
        exact ⟨hvariable, howner, hfits, hsource⟩
      · exact absurd h nofun
    · rintro ⟨_, howner, hfits, hsource⟩
      rw [howner, hfits, hsource]
      rfl
  · unfold checkAssign
    rw [if_neg hvariable]
    exact iff_of_false nofun fun h => hvariable h.1

theorem meets_assign (hx : x.Backed b.graph) (hy : y.Backed x.graph b.graph) :
    (x.assign y).Meets b fun _ _ => True := by
  refine .checked (run_assign b x y) fun source hcheck => ?_
  obtain ⟨hvariable, howner, hty, hsource⟩ := checkAssign_eq_ok.1 hcheck
  have hsteps := source.steps_recordedIn b
  obtain ⟨init, hinit⟩ := hx.exists_var hvariable
  have hvar := hsteps.grows.vertex_eq hinit nofun
  have hexpr := (Operand.source_hasType hy howner hsource).handleIn
  rw [hty] at hexpr
  exact ⟨(hsteps.tail (.note _)).tail (.rebind hvar hexpr), trivial⟩

theorem meets_setUniform (value : Value) : (x.setUniform g value).Meets b fun _ _ => True :=
  .accept_bind fun _ _ => Build.meets_setUniform x.handle value

theorem meets_evaluate (bindings : Bindings) : (x.evaluate g bindings).Meets b fun _ _ => True :=
  .accept_bind fun _ _ => Build.meets_evaluate x.handle bindings

end Node

end ShaderExpr
