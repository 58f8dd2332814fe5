import ShaderExpr.Proofs.Effects

/-!
# What building records

`Builder.Make` is one thing that is done for a new expression: a vertex is recorded, which is announced if it is an
input or a variable; an input of a composite is recorded, named and kept; or another composite is kept.  Calls that are
accepted take any number of these steps (`Build.Makes`), unless they rebind a variable, name a vertex, or give a value
to an input.

So what each step does to a builder and what steps compose to holds of all composites and textures.
-/

namespace ShaderExpr

variable {n : Nat} {b b' b'' : Builder}

/-- Inputs and variables are announced. -/
def Vertex.announcement? (h : Handle) : Vertex → Option Notice
  | uniform ty _ => some (.uniformDeclared h ty)
  | attr ty name => some (.attributeDeclared h ty name)
  | texture kind info => some (.textureDeclared h kind info)
  | var ty init => some (.variableDeclared h ty init)
  | _ => none

namespace Builder

/-- An input of a composite is recorded, announced, named and kept. -/
def named (b : Builder) (c : Composite) (name : String) : Builder :=
  ((((b.recorded (.uniform c.ty (.initial c.ty))).noted (.uniformDeclared b.graph.next c.ty)).labelled b.graph.next
    name).shared c b.graph.next)

inductive Make (b : Builder) : Builder → Prop
  | recorded {v : Vertex} (hv : v.announcement? b.graph.next = none) : Make b (b.recorded v)
  | announced {v : Vertex} {notice : Notice} (hv : v.announcement? b.graph.next = some notice) :
    Make b ((b.recorded v).noted notice)
  | kept {c : Composite} (hc : c.label? b.config.names = none) (h : Handle) : Make b (b.shared c h)
  | named {c : Composite} {name : String} (hname : c.label? b.config.names = some name)
    (hnone : b.composites c = none) : Make b (b.named c name)

/-- Any number of steps. -/
def Makes : Builder → Builder → Prop :=
  Relation.ReflTransGen Make

namespace Makes

theorem refl (b : Builder) : b.Makes b :=
  Relation.ReflTransGen.refl

theorem single (h : b.Make b') : b.Makes b' :=
  Relation.ReflTransGen.single h

theorem trans (h : b.Makes b') (h' : b'.Makes b'') : b.Makes b'' :=
  Relation.ReflTransGen.trans h h'

theorem tail (h : b.Makes b') (h' : b'.Make b'') : b.Makes b'' :=
  Relation.ReflTransGen.tail h h'

end Makes

end Builder

theorem Source.makes_recordedIn (source : Source) (b : Builder) : b.Makes (source.recordedIn b) := by
  cases source with
  | vertex h => exact .refl b
  | constant value => exact .single (.recorded rfl)

theorem Source.makes_allRecordedIn (sources : List Source) (b : Builder) : b.Makes (allRecordedIn b sources) := by
  induction sources generalizing b with
  | nil => exact .refl b
  | cons source sources ih => exact (source.makes_recordedIn b).trans (ih (source.recordedIn b))

namespace Build

variable {α β σ : Type}

/-- Whenever a call is accepted, it has made something, and done nothing else. -/
def Makes (call : Build α) : Prop :=
  ∀ b a b', call.run b = (.ok a, b') → b.Makes b'

namespace Makes

theorem pure (a : α) : Makes (Pure.pure a) := by
  intro b _ b' hrun
  cases hrun
  exact .refl b

theorem bind {call : Build α} {f : α → Build β} (hcall : call.Makes) (hf : ∀ a, (f a).Makes) :
    (call >>= f).Makes := by
  intro b y b'' hrun
  rw [run_bind] at hrun
  rcases hfirst : call.run b with ⟨e | a, b'⟩ <;> rw [hfirst] at hrun
  · exact absurd hrun nofun
  · exact (hcall b a b' hfirst).trans (hf a b' y b'' hrun)

theorem get_bind {f : Builder → Build α} (hf : ∀ b, (f b).Makes) : (get >>= f).Makes :=
  fun b => hf b b

theorem lift {draft : Draft α} (hdraft : ∀ b : Builder, b.Makes (draft.run b).2) : Makes (liftM draft) := by
  intro b a b' hrun
  cases hrun
  exact hdraft b

theorem checked {call : Build α} {check : Except Rejection σ} {accepted : Builder → σ → α × Builder}
    (hrun : ∀ b, call.run b = Build.checked b check (accepted b))
    (hok : ∀ (b : Builder) x, b.Makes (accepted b x).2) : call.Makes := by
  intro b a b' hsome
  obtain ⟨x, _, haccepted⟩ := exists_of_checked ((hrun b).symm.trans hsome)
  have hmakes := hok b x
  rwa [haccepted] at hmakes

end Makes

end Build

namespace Node

theorem makes_binary (x : Node n) (op : BinaryOp) (y : Operand n) : (x.binary op y).Makes :=
  .checked (fun b => run_binary b x y op) fun b result => (result.2.makes_recordedIn b).tail (.recorded rfl)

theorem makes_oneMinus (x : Node n) : x.oneMinus.Makes :=
  .checked (fun b => run_oneMinus b x) fun _ _ => .single (.recorded rfl)

theorem makes_access (x : Node n) (name : String) : (x.access name).Makes :=
  .checked (fun b => run_access b x name) fun _ _ => .single (.recorded rfl)

theorem makes_cast (x : Node n) (target : ValueType) : (x.cast target).Makes :=
  .checked (fun b => run_cast b x target) fun _ _ => .single (.recorded rfl)

theorem makes_construct (g : Fin n) (target : ValueType) (args : List (Operand n)) : (construct g target args).Makes :=
  .checked (fun b => run_construct b g target args) fun b sources =>
    (Source.makes_allRecordedIn sources b).tail (.recorded rfl)

end Node

namespace Composite

/-- A property that composites have because it passes through the calls that they are built of. -/
structure Compositional (n : Nat) (P : ∀ {α : Type}, Build α → Prop) : Prop where
  pure {α : Type} (a : α) : P (Pure.pure a : Build α)
  bind {α β : Type} {call : Build α} {f : α → Build β} : P call → (∀ a, P (f a)) → P (call >>= f)
  /-- Of the builder, only its configuration is looked at. -/
  get_bind {α : Type} {f : Builder → Build α} : (∀ b b', b.config = b'.config → f b = f b') → (∀ b, P (f b)) →
    P (get >>= f)
  binary (x : Node n) (op : BinaryOp) (y : Operand n) : P (x.binary op y)
  oneMinus (x : Node n) : P x.oneMinus
  access (x : Node n) (name : String) : P (x.access name)
  construct (g : Fin n) (target : ValueType) (args : List (Operand n)) : P (Node.construct g target args)
  input (c : Composite) (g : Fin n) : c.parts = [] → P (c.build g)
  shared {c : Composite} {g : Fin n} {build : Build Handle} : c.parts ≠ [] → P build →
    P (c.shared build >>= fun h => Pure.pure (c.node g h))

theorem Compositional.build {P : ∀ {α : Type}, Build α → Prop} (hP : Compositional n P) (c : Composite) (g : Fin n) :
    P (c.build g) := by
  have hnormZ : P (normZ.build g) := by
    refine hP.shared nofun ?_
    refine hP.bind (hP.input zIndex g rfl) fun z => ?_
    refine hP.bind (hP.binary _ _ _) fun next => ?_
    exact hP.bind (hP.binary _ _ _) fun x => hP.pure x.handle
  cases c with
  | uv | zIndex | viewMatrix | worldMatrix => exact hP.input _ g rfl
  | modelView =>
    refine hP.shared nofun ?_
    refine hP.bind (hP.input viewMatrix g rfl) fun view => ?_
    refine hP.bind (hP.input worldMatrix g rfl) fun world => ?_
    exact hP.bind (hP.binary _ _ _) fun x => hP.pure x.handle
  | legacyUv =>
    refine hP.shared nofun ?_
    refine hP.bind (hP.input uv g rfl) fun coordinates => ?_
    refine hP.bind (hP.access _ _) fun u => ?_
    refine hP.bind (hP.access _ _) fun v => ?_
    refine hP.bind (hP.oneMinus _) fun flipped => ?_
    exact hP.bind (hP.construct _ _ _) fun x => hP.pure x.handle
  | normZ => exact hnormZ
  | depthBias =>
    refine hP.shared nofun (hP.get_bind (fun b b' h => by rw [h]) fun b => ?_)
    refine hP.bind hnormZ fun z => ?_
    refine hP.bind (hP.binary _ _ _) fun bias => ?_
    exact hP.bind (hP.construct _ _ _) fun x => hP.pure x.handle

variable {c : Composite} {g : Fin n}

/-- Only inputs get names. -/
theorem label?_eq_none {names : InputNames} (hc : c.parts ≠ []) : c.label? names = none := by
  cases c with
  | zIndex | viewMatrix | worldMatrix => exact absurd rfl hc
  | _ => rfl

theorem makes_buildUv (g : Fin n) (b : Builder) : b.Makes ((buildUv g).run b).2 := by
  show b.Makes ((uv.shared _ : Draft Handle).run b).2
  rw [run_shared]
  cases b.composites uv with
  | some h => exact .refl b
  | none => exact (Builder.Makes.single (.announced rfl)).tail (.kept rfl _)

/-- An input is recorded, named and kept unless it is kept already. -/
private theorem makes_input {name : InputNames → String} (hname : ∀ names, c.label? names = some (name names))
    (b : Builder) : b.Makes ((c.shared do namedUniform g c.ty (name (← get).config.names) : Draft Handle).run b).2 := by
  rw [run_shared]
  cases hc : b.composites c with
  | some h => exact .refl b
  | none => exact .single (.named (hname b.config.names) hc)

theorem makes_buildZIndex (g : Fin n) (b : Builder) : b.Makes ((buildZIndex g).run b).2 :=
  makes_input (c := zIndex) (g := g) (fun _ => rfl) b

theorem makes_buildViewMatrix (g : Fin n) (b : Builder) : b.Makes ((buildViewMatrix g).run b).2 :=
  makes_input (c := viewMatrix) (g := g) (fun _ => rfl) b

theorem makes_buildWorldMatrix (g : Fin n) (b : Builder) : b.Makes ((buildWorldMatrix g).run b).2 :=
  makes_input (c := worldMatrix) (g := g) (fun _ => rfl) b

/-- A composite that is no input is kept when it is made. -/
private theorem makes_shared (hc : ∀ names, c.label? names = none) {build : Build Handle} (hbuild : build.Makes) :
    Build.Makes (c.shared build >>= fun h => pure (c.node g h)) := by
  refine Build.Makes.bind (.get_bind fun b => ?_) fun h => .pure _
  cases b.composites c with
  | some h => exact .pure h
  | none =>
    refine hbuild.bind fun h b a b' hrun => ?_
    cases hrun
    exact .single (.kept (hc _) h)

/-- Building a composite makes its parts, unless they are kept, and its vertices, and keeps it. -/
theorem makes_build (c : Composite) (g : Fin n) : (c.build g).Makes := by
  refine Compositional.build ?_ c g
  exact
    { pure := .pure
      bind := .bind
      get_bind := fun _ hf => .get_bind hf
      binary := Node.makes_binary
      oneMinus := Node.makes_oneMinus
      access := Node.makes_access
      construct := Node.makes_construct
      input := fun d g hd => by
        cases d with
        | uv => exact .lift (makes_buildUv g)
        | zIndex => exact .lift (makes_buildZIndex g)
        | viewMatrix => exact .lift (makes_buildViewMatrix g)
        | worldMatrix => exact .lift (makes_buildWorldMatrix g)
        | modelView | legacyUv | normZ | depthBias => exact nomatch hd
      shared := fun hd hbuild => makes_shared (fun _ => label?_eq_none hd) hbuild }

end Composite

namespace Texture

/-- A texture is made, and then the texture coordinates of its graph, unless they are kept, and its texels. -/
theorem makes_declare (g : Fin n) (kind : TextureKind) (info : TextureInfo) (b : Builder) :
    b.Makes ((declare g kind info).run b).2 := by
  have huv := Composite.makes_buildUv g ((b.recorded (.texture kind info)).noted
    (.textureDeclared b.graph.next kind info))
  exact ((Builder.Makes.single (.announced rfl)).trans huv).tail (.recorded rfl)

theorem makes_withUv (t : Texture n) (uv : Node n) : (t.withUv uv).Makes :=
  .checked (fun b => run_withUv b t uv) fun _ _ => .single (.recorded rfl)

end Texture

end ShaderExpr
