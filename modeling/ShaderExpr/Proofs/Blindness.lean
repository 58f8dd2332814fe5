import ShaderExpr.Proofs.Labels

/-!
# Labels change nothing else

No call looks at labels: in a graph with other labels it has the same answer, and the same effect but for the labels
(`Build.Blind`).  So the calls that only name vertices can be left out of a run, and the other calls have the same
replies, and every graph the same vertices, rebinds and values (`Session.relabels_after_filter`).
-/

namespace ShaderExpr

variable {n : Nat}

namespace Graph

/-- A graph with other labels. -/
def relabelled (g : Graph) (labels : List (Handle × String)) : Graph :=
  { g with labels := labels }

theorem latestRebind?_relabelled (g : Graph) (labels : List (Handle × String)) (var : Handle) (visible : Nat) :
    (g.relabelled labels).latestRebind? var visible = g.latestRebind? var visible := by
  induction visible with
  | zero => rfl
  | succ visible ih =>
    unfold latestRebind?
    rw [ih]
    rfl

theorem step_relabelled (g : Graph) (labels : List (Handle × String)) (b : Bindings)
    (recur : Handle → Nat → Attempt Value) (h : Handle) (visible : Nat) :
    (g.relabelled labels).step b recur h visible = g.step b recur h visible := by
  unfold step
  rw [latestRebind?_relabelled]
  rfl

theorem evalWithin_relabelled (g : Graph) (labels : List (Handle × String)) (b : Bindings) (depth : Nat) :
    (g.relabelled labels).evalWithin b depth = g.evalWithin b depth := by
  induction depth with
  | zero => rfl
  | succ depth ih =>
    funext h visible
    show (g.relabelled labels).step b ((g.relabelled labels).evalWithin b depth) h visible = _
    rw [ih]
    exact g.step_relabelled labels b _ h visible

theorem eval_relabelled (g : Graph) (labels : List (Handle × String)) (b : Bindings) (h : Handle) :
    (g.relabelled labels).eval b h = g.eval b h := by
  refine Option.some.inj ?_
  unfold eval
  rw [Option.some_get, Option.some_get, evalWithin_relabelled]
  rfl

theorem evaluate_relabelled (g : Graph) (labels : List (Handle × String)) (b : Bindings) (h : Handle) :
    (g.relabelled labels).evaluate b h = g.evaluate b h :=
  congrArg (Except.mapError EvalFailure.error) (g.eval_relabelled labels b h)

theorem setUniform_relabelled (g : Graph) (labels : List (Handle × String)) (h : Handle) (value : Value) :
    (g.relabelled labels).setUniform h value = (g.setUniform h value).map (·.relabelled labels) := by
  have hvertex : (g.relabelled labels).vertex? h = g.vertex? h := rfl
  unfold setUniform
  rw [hvertex]
  cases g.vertex? h with
  | none => rfl
  | some v =>
    cases v with
    | uniform ty _ =>
      dsimp only
      split <;> rfl
    | _ => rfl

end Graph

/-- A builder with other labels. -/
def Builder.relabelled (b : Builder) (labels : List (Handle × String)) : Builder :=
  { b with graph := b.graph.relabelled labels }

section Blind

variable {α β σ : Type}

/-- With other labels, a request has the same answer, and the same effect but for labels. -/
def Draft.Blind (draft : Draft α) : Prop :=
  ∀ b labels, ∃ labels', draft.run (b.relabelled labels) = ((draft.run b).1, (draft.run b).2.relabelled labels')

def Build.Blind (call : Build α) : Prop :=
  Draft.Blind call.run

namespace Build.Blind

theorem pure (a : α) : Build.Blind (Pure.pure a) :=
  fun _ labels => ⟨labels, rfl⟩

theorem bind {call : Build α} {f : α → Build β} (hcall : call.Blind) (hf : ∀ a, (f a).Blind) :
    (call >>= f).Blind := by
  intro b labels
  obtain ⟨labels₁, hfirst⟩ := hcall b labels
  have hfirst' : call.run (b.relabelled labels) = ((call.run b).1, (call.run b).2.relabelled labels₁) := hfirst
  show ∃ labels', (call >>= f).run (b.relabelled labels) =
    (((call >>= f).run b).1, ((call >>= f).run b).2.relabelled labels')
  rw [run_bind, run_bind, hfirst']
  rcases call.run b with ⟨e | a, b'⟩
  · exact ⟨labels₁, rfl⟩
  · exact hf a b' labels₁

theorem get_bind {f : Builder → Build α} (hf : ∀ b labels, f (b.relabelled labels) = f b) (hblind : ∀ b, (f b).Blind) :
    Build.Blind (get >>= f) := by
  intro b labels
  have hsame := hblind b b labels
  rw [← hf b labels] at hsame
  obtain ⟨labels', hrun⟩ := hsame
  refine ⟨labels', hrun.trans ?_⟩
  rw [hf]
  rfl

theorem lift {draft : Draft α} (hdraft : draft.Blind) : Build.Blind (liftM draft) := by
  intro b labels
  obtain ⟨labels', hrun⟩ := hdraft b labels
  exact ⟨labels', congrArg (fun outcome : α × Builder => (Except.ok outcome.1, outcome.2)) hrun⟩

theorem accept (check : Except Rejection α) : Build.Blind (Build.accept check) := by
  cases check with
  | ok a => exact .pure a
  | error reason => exact fun _ labels => ⟨labels, rfl⟩

end Build.Blind

end Blind

namespace Source

theorem recordedIn_relabelled (source : Source) (b : Builder) (labels : List (Handle × String)) :
    source.recordedIn (b.relabelled labels) = (source.recordedIn b).relabelled labels := by
  cases source <;> rfl

theorem handleIn_relabelled (source : Source) (b : Builder) (labels : List (Handle × String)) :
    source.handleIn (b.relabelled labels) = source.handleIn b := by
  cases source <;> rfl

theorem allRecordedIn_relabelled (sources : List Source) (b : Builder) (labels : List (Handle × String)) :
    allRecordedIn (b.relabelled labels) sources = (allRecordedIn b sources).relabelled labels := by
  induction sources generalizing b with
  | nil => rfl
  | cons source sources ih =>
    show allRecordedIn (source.recordedIn (b.relabelled labels)) sources = _
    rw [recordedIn_relabelled, ih]
    rfl

theorem handlesIn_relabelled (sources : List Source) (b : Builder) (labels : List (Handle × String)) :
    handlesIn (b.relabelled labels) sources = handlesIn b sources := by
  induction sources generalizing b with
  | nil => rfl
  | cons source sources ih =>
    show source.handleIn (b.relabelled labels) :: handlesIn (source.recordedIn (b.relabelled labels)) sources = _
    rw [handleIn_relabelled, recordedIn_relabelled, ih]
    rfl

theorem blind_record (source : Source) : source.record.Blind := by
  intro b labels
  rw [run_record, run_record, handleIn_relabelled, recordedIn_relabelled]
  exact ⟨labels, rfl⟩

theorem blind_recordAll (sources : List Source) : (recordAll sources).Blind := by
  intro b labels
  rw [run_recordAll, run_recordAll, handlesIn_relabelled, allRecordedIn_relabelled]
  exact ⟨labels, rfl⟩

end Source

namespace Node

open Build.Blind (accept lift)

theorem blind_binary (x : Node n) (op : BinaryOp) (y : Operand n) : (x.binary op y).Blind := by
  refine (accept (checkBinary op x y)).bind fun (ty, source) => ?_
  exact (lift source.blind_record).bind fun right => lift fun _ labels => ⟨labels, rfl⟩

theorem blind_oneMinus (x : Node n) : x.oneMinus.Blind :=
  (accept x.ty.checkOneMinus).bind fun _ => lift fun _ labels => ⟨labels, rfl⟩

theorem blind_access (x : Node n) (name : String) : (x.access name).Blind :=
  (accept (x.ty.checkAccess name)).bind fun _ => lift fun _ labels => ⟨labels, rfl⟩

theorem blind_cast (x : Node n) (target : ValueType) : (x.cast target).Blind :=
  (accept (x.ty.checkConversion target)).bind fun _ => lift fun _ labels => ⟨labels, rfl⟩

theorem blind_assign (x : Node n) (y : Operand n) : (x.assign y).Blind := by
  refine (accept (checkAssign x y)).bind fun source => (lift source.blind_record).bind fun expr => ?_
  exact fun _ labels => ⟨labels, rfl⟩

theorem blind_construct (g : Fin n) (target : ValueType) (args : List (Operand n)) :
    (construct g target args).Blind := by
  refine (accept (checkConstruct g target args)).bind fun sources => ?_
  refine (lift (Source.blind_recordAll sources)).bind fun operands => ?_
  exact fun _ labels => ⟨labels, rfl⟩

end Node

namespace Build

theorem blind_setUniform (h : Handle) (value : Value) : (setUniform h value).Blind := by
  intro b labels
  have hrun : (setUniform h value).run (b.relabelled labels) = (((setUniform h value).run b).1,
      ((setUniform h value).run b).2.relabelled labels) := by
    have hset : (b.relabelled labels).graph.setUniform h value =
        (b.graph.setUniform h value).map (·.relabelled labels) := b.graph.setUniform_relabelled labels h value
    rw [run_setUniform, run_setUniform, hset]
    cases b.graph.setUniform h value with
    | ok g => rfl
    | error e => cases e <;> rfl
  exact ⟨labels, hrun⟩

theorem blind_evaluate (h : Handle) (bindings : Bindings) : (evaluate h bindings).Blind := by
  intro b labels
  have hrun : (evaluate h bindings).run (b.relabelled labels) = (((evaluate h bindings).run b).1,
      ((evaluate h bindings).run b).2.relabelled labels) := by
    rw [run_evaluate, run_evaluate]
    exact congrArg (·, b.relabelled labels) (b.graph.evaluate_relabelled labels bindings h)
  exact ⟨labels, hrun⟩

end Build

theorem Request.blind_perform (r : Request) : (r.perform : Build (Reply n)).Blind := by
  cases r with
  | record v => exact fun _ labels => ⟨labels, rfl⟩
  | rebind var expr => exact fun _ labels => ⟨labels, rfl⟩
  | label h name => exact fun _ labels => ⟨(h, name) :: labels, rfl⟩
  | setUniform h value => exact (Build.blind_setUniform h value).bind fun _ => .pure _

namespace Composite

variable {c : Composite} {g : Fin n}

private theorem blind_shared_draft {build : Draft Handle} (hbuild : build.Blind) :
    (c.shared build >>= fun h => pure (c.node g h) : Draft (Node n)).Blind := by
  intro b labels
  have hrun : ∀ b, (c.shared build >>= fun h => pure (c.node g h) : Draft (Node n)).run b =
    (c.node g ((c.shared build).run b).1, ((c.shared build).run b).2) := fun _ => rfl
  have hkept : (b.relabelled labels).composites c = b.composites c := rfl
  rw [hrun, hrun, run_shared, run_shared, hkept]
  cases b.composites c with
  | some h => exact ⟨labels, rfl⟩
  | none =>
    obtain ⟨labels', hbuilt⟩ := hbuild b labels
    exact ⟨labels', by rw [hbuilt]; rfl⟩

private theorem blind_shared {build : Build Handle} (hbuild : build.Blind) :
    (c.shared build >>= fun h => pure (c.node g h) : Build (Node n)).Blind := by
  refine Build.Blind.bind (.get_bind (fun b labels => rfl) fun b => ?_) fun h => .pure _
  cases b.composites c with
  | some h => exact .pure h
  | none => exact hbuild.bind fun h => fun _ labels => ⟨labels, rfl⟩

theorem blind_buildUv (g : Fin n) : (buildUv g).Blind :=
  blind_shared_draft fun _ labels => ⟨labels, rfl⟩

private theorem blind_input (name : InputNames → String) :
    (c.shared (do namedUniform g c.ty (name (← get).config.names)) >>= fun h => pure (c.node g h) :
      Draft (Node n)).Blind :=
  blind_shared_draft fun b labels => ⟨(b.graph.next, name b.config.names) :: labels, rfl⟩

theorem blind_buildZIndex (g : Fin n) : (buildZIndex g).Blind :=
  blind_input (c := zIndex) InputNames.zIndex

theorem blind_buildViewMatrix (g : Fin n) : (buildViewMatrix g).Blind :=
  blind_input (c := viewMatrix) InputNames.viewMatrix

theorem blind_buildWorldMatrix (g : Fin n) : (buildWorldMatrix g).Blind :=
  blind_input (c := worldMatrix) InputNames.worldMatrix

theorem blind_build (c : Composite) (g : Fin n) : (c.build g).Blind := by
  refine Compositional.build ?_ c g
  exact
    { pure := .pure
      bind := .bind
      get_bind := fun hf hblind => .get_bind (fun b labels => hf _ b rfl) hblind
      binary := Node.blind_binary
      oneMinus := Node.blind_oneMinus
      access := Node.blind_access
      construct := Node.blind_construct
      input := fun d g hd => by
        cases d with
        | uv => exact .lift (blind_buildUv g)
        | zIndex => exact .lift (blind_buildZIndex g)
        | viewMatrix => exact .lift (blind_buildViewMatrix g)
        | worldMatrix => exact .lift (blind_buildWorldMatrix g)
        | modelView | legacyUv | normZ | depthBias => exact nomatch hd
      shared := fun _ hbuild => blind_shared hbuild }

end Composite

theorem Texture.blind_declare (g : Fin n) (kind : TextureKind) (info : TextureInfo) : (declare g kind info).Blind := by
  intro b labels
  obtain ⟨labels', huv⟩ := Composite.blind_buildUv g ((b.recorded (.texture kind info)).noted
    (.textureDeclared b.graph.next kind info)) labels
  refine ⟨labels', ?_⟩
  exact congrArg (fun outcome : Node n × Builder => (read g b.graph.next outcome.1 info).run outcome.2) huv

theorem Texture.blind_withUv (t : Texture n) (uv : Node n) : (t.withUv uv).Blind :=
  (Build.Blind.accept (t.checkUv uv)).bind fun _ => .lift fun _ labels => ⟨labels, rfl⟩

/-- A call only asks for a name. -/
def Call.isLabel : Call n → Bool
  | label _ _ | labelVariable _ _ | request _ (.label _ _) => true
  | _ => false

namespace Session

variable {s s' : Session n} {c : Call n} {calls : List (Call n)} {g : Fin n} {h : Handle} {name : String}

/-- The replies to calls, the first of which is the head of the list. -/
def replies (s : Session n) : List (Call n) → List (Except Error (Reply n))
  | [] => []
  | c :: calls => (s.perform c).1 :: (s.perform c).2.replies calls

/-- A session that differs in labels only. -/
structure Relabels (s s' : Session n) : Prop where
  nextResource : s'.nextResource = s.nextResource
  builder (g : Fin n) : ∃ labels, s'.builder g = (s.builder g).relabelled labels

namespace Relabels

theorem refl (s : Session n) : s.Relabels s where
  nextResource := rfl
  builder g := ⟨(s.builder g).graph.labels, rfl⟩

theorem trans {s'' : Session n} (h : s.Relabels s') (h' : s'.Relabels s'') : s.Relabels s'' where
  nextResource := h'.nextResource.trans h.nextResource
  builder g := by
    obtain ⟨labels, hg⟩ := h.builder g
    obtain ⟨labels', hg'⟩ := h'.builder g
    exact ⟨labels', by rw [hg', hg]; rfl⟩

private theorem on {call : Build (Reply n)} (h : s.Relabels s') (hcall : call.Blind) (g : Fin n) :
    (s'.on g call).1 = (s.on g call).1 ∧ (s.on g call).2.Relabels (s'.on g call).2 := by
  obtain ⟨labels, hg⟩ := h.builder g
  obtain ⟨labels', hrun⟩ := hcall (s.builder g) labels
  have houtcome : call.run (s'.builder g) =
      ((call.run (s.builder g)).1, (call.run (s.builder g)).2.relabelled labels') := hg ▸ hrun
  refine ⟨?_, h.nextResource, fun g' => ?_⟩
  · show (call.run (s'.builder g)).1 = (call.run (s.builder g)).1
    rw [houtcome]
  by_cases hne : g = g'
  · subst hne
    rw [builder_on_self, builder_on_self, houtcome]
    exact ⟨labels', rfl⟩
  · rw [builder_on_ne hne, builder_on_ne hne]
    exact h.builder g'

private theorem map {α : Type} {call : Build α} {f : α → Reply n} (h : s.Relabels s') (hcall : call.Blind) (g : Fin n) :
    (s'.on g (call >>= fun a => pure (f a))).1 = (s.on g (call >>= fun a => pure (f a))).1 ∧
      (s.on g (call >>= fun a => pure (f a))).2.Relabels (s'.on g (call >>= fun a => pure (f a))).2 :=
  h.on (hcall.bind fun _ => .pure _) g

/-- A call has the same reply if only labels differ, and then only labels differ again. -/
theorem perform (h : s.Relabels s') (c : Call n) :
    (s'.perform c).1 = (s.perform c).1 ∧ (s.perform c).2.Relabels (s'.perform c).2 := by
  obtain ⟨builders, next⟩ := s'
  cases (h.nextResource : next = s.nextResource)
  have hallocate : s.allocate.2.Relabels (allocate ⟨builders, s.nextResource⟩).2 := ⟨rfl, h.builder⟩
  cases c with
  | uniform g value => exact h.map (.lift fun _ labels => ⟨labels, rfl⟩) g
  | constant g value => exact h.map (.lift fun _ labels => ⟨labels, rfl⟩) g
  | attr g ty name => exact h.map (.lift fun _ labels => ⟨labels, rfl⟩) g
  | colorTexture g name => exact hallocate.map (.lift (Texture.blind_declare g .sampled _)) g
  | dataTexture g format name => exact hallocate.map (.lift (Texture.blind_declare g .data _)) g
  | withUv t uv => exact h.map (t.blind_withUv uv) _
  | composite g d => exact h.map (d.blind_build g) g
  | binary op x y => exact h.map (x.blind_binary op y) _
  | oneMinus x => exact h.map x.blind_oneMinus _
  | access x name => exact h.map (x.blind_access name) _
  | cast x target => exact h.map (x.blind_cast target) _
  | construct g target args => exact h.map (Node.blind_construct g target args) g
  | toVariable x => exact h.map (.lift fun _ labels => ⟨labels, rfl⟩) _
  | assign x y => exact h.map (x.blind_assign y) _
  | label x name => exact h.map (.lift fun _ labels => ⟨(x.handle, name) :: labels, rfl⟩) _
  | labelVariable v name => exact h.map (.lift fun _ labels => ⟨(v.node.handle, name) :: labels, rfl⟩) _
  | setUniform g x value => exact h.map ((Build.Blind.accept _).bind fun _ => Build.blind_setUniform _ _) g
  | evaluate g x bindings => exact h.map ((Build.Blind.accept _).bind fun _ => Build.blind_evaluate _ _) g
  | request g r => exact h.on r.blind_perform g
  | resourceId => exact ⟨rfl, hallocate⟩

theorem replies_eq (h : s.Relabels s') (calls : List (Call n)) : s'.replies calls = s.replies calls := by
  induction calls generalizing s s' with
  | nil => rfl
  | cons c calls ih =>
    obtain ⟨hreply, hrelabels⟩ := h.perform c
    unfold replies
    rw [hreply, ih hrelabels]

theorem after (h : s.Relabels s') (calls : List (Call n)) : (s.after calls).Relabels (s'.after calls) := by
  induction calls generalizing s s' with
  | nil => exact h
  | cons c calls ih => exact ih (h.perform c).2

theorem vertices_eq (h : s.Relabels s') (g : Fin n) :
    (s'.builder g).graph.vertices = (s.builder g).graph.vertices := by
  obtain ⟨labels, hg⟩ := h.builder g
  rw [hg]
  rfl

theorem rebinds_eq (h : s.Relabels s') (g : Fin n) :
    (s'.builder g).graph.rebinds = (s.builder g).graph.rebinds := by
  obtain ⟨labels, hg⟩ := h.builder g
  rw [hg]
  rfl

theorem evaluate_eq (h : s.Relabels s') (g : Fin n) (b : Bindings) (x : Handle) :
    (s'.builder g).graph.evaluate b x = (s.builder g).graph.evaluate b x := by
  obtain ⟨labels, hg⟩ := h.builder g
  rw [hg]
  exact (s.builder g).graph.evaluate_relabelled labels b x

end Relabels

/-! ### Leaving out the calls that name -/

private theorem relabels_on {call : Build (Reply n)}
    (hrun : (call.run (s.builder g)).2 = (s.builder g).labelled h name) : s.Relabels (s.on g call).2 where
  nextResource := rfl
  builder g' := by
    by_cases hne : g = g'
    · subst hne
      rw [builder_on_self, hrun]
      exact ⟨_, rfl⟩
    · rw [builder_on_ne hne]
      exact ⟨(s.builder g').graph.labels, rfl⟩

theorem relabels_perform (s : Session n) (hc : c.isLabel = true) : s.Relabels (s.perform c).2 := by
  cases c with
  | label x name => exact relabels_on rfl
  | labelVariable v name => exact relabels_on rfl
  | request g r =>
    cases r with
    | label h name => exact relabels_on rfl
    | _ => exact absurd hc nofun
  | _ => exact absurd hc nofun

/-- A run without the calls that name leads to the same graphs, but for their labels. -/
theorem relabels_after_filter (s : Session n) (calls : List (Call n)) :
    (s.after (calls.filter fun c => !c.isLabel)).Relabels (s.after calls) := by
  induction calls generalizing s with
  | nil => exact .refl s
  | cons c calls ih =>
    cases hc : c.isLabel with
    | false =>
      rw [List.filter_cons_of_pos (by rw [hc]; rfl)]
      exact ih _
    | true =>
      rw [List.filter_cons_of_neg (by rw [hc]; nofun)]
      exact ((s.relabels_perform hc).after _).trans (ih _)

/-- The calls that do not name have the same replies in a run without the others. -/
theorem zip_replies_filter (s : Session n) (calls : List (Call n)) :
    let others := calls.filter fun c => !c.isLabel
    others.zip (s.replies others) = (calls.zip (s.replies calls)).filter fun entry => !entry.1.isLabel := by
  induction calls generalizing s with
  | nil => rfl
  | cons c calls ih =>
    show _ = ((c, (s.perform c).1) :: calls.zip ((s.perform c).2.replies calls)).filter _
    cases hc : c.isLabel with
    | false =>
      rw [List.filter_cons_of_pos (by rw [hc]; rfl), List.filter_cons_of_pos (by rw [hc]; rfl), ← ih]
      rfl
    | true =>
      rw [List.filter_cons_of_neg (by rw [hc]; nofun), List.filter_cons_of_neg (by rw [hc]; nofun), ← ih,
        (s.relabels_perform hc).replies_eq]

/-- How labels follow calls, and nothing else follows labels. -/
structure LabelsFollow (start : Session n) (calls : List (Call n)) (g : Fin n) : Prop where
  /-- A vertex has the name that was asked for last. -/
  named (h : Handle) (name : String) :
    ((start.after calls).builder g).graph.labelOf? h = some name ↔ start.NamedLast calls g h name
  unnamed (h : Handle) : ((start.after calls).builder g).graph.labelOf? h = none ↔ ¬ start.NamedIn calls g h
  /-- A name is found at the least vertex that has it now. -/
  found (name : String) (h : Handle) :
    ((start.after calls).builder g).graph.findLabel? name = some h ↔
      ((start.after calls).builder g).graph.labelOf? h = some name ∧
      ∀ k, ((start.after calls).builder g).graph.labelOf? k = some name → h.index ≤ k.index
  missing (name : String) :
    ((start.after calls).builder g).graph.findLabel? name = none ↔
      ∀ h, ((start.after calls).builder g).graph.labelOf? h ≠ some name
  /-- A vertex that gets another name gives way to the next one. -/
  renamed {c : Call n} {h : Handle} {name name' : String} (hc : c.name? g = some (h, name')) (hne : name ≠ name')
    (k : Handle) :
    ((start.after (calls ++ [c])).builder g).graph.findLabel? name = some k ↔
      k ≠ h ∧ ((start.after calls).builder g).graph.labelOf? k = some name ∧
      ∀ k', k' ≠ h → ((start.after calls).builder g).graph.labelOf? k' = some name → k.index ≤ k'.index
  /-- A call that names is accepted, and replies with what it has named. -/
  replied {c : Call n} (hc : c.isLabel = true) :
    (∃ x name, c = .label x name ∧
      ((start.after calls).perform c).1 = .ok (.node ⟨x.graph, x.handle, x.ty, false⟩)) ∨
    (∃ v name, c = .labelVariable v name ∧ ((start.after calls).perform c).1 = .ok (.variable v)) ∨
    (∃ g h name, c = .request g (.label h name) ∧ ((start.after calls).perform c).1 = .ok .done)
  /-- The other calls have the same replies without those that name, -/
  replies :
    (calls.filter fun c => !c.isLabel).zip (start.replies (calls.filter fun c => !c.isLabel)) =
      (calls.zip (start.replies calls)).filter fun entry => !entry.1.isLabel
  /-- and lead to the same vertices with the same types, -/
  vertices : ((start.after (calls.filter fun c => !c.isLabel)).builder g).graph.vertices =
    ((start.after calls).builder g).graph.vertices
  rebinds : ((start.after (calls.filter fun c => !c.isLabel)).builder g).graph.rebinds =
    ((start.after calls).builder g).graph.rebinds
  /-- and values. -/
  values (b : Bindings) (h : Handle) :
    ((start.after (calls.filter fun c => !c.isLabel)).builder g).graph.evaluate b h =
      ((start.after calls).builder g).graph.evaluate b h

private theorem findLabel?_after_named {name' : String} {k : Handle} (s : Session n) (calls : List (Call n))
    (hc : c.name? g = some (h, name')) (hne : name ≠ name') :
    ((s.after (calls ++ [c])).builder g).graph.findLabel? name = some k ↔
      k ≠ h ∧ ((s.after calls).builder g).graph.labelOf? k = some name ∧
      ∀ k', k' ≠ h → ((s.after calls).builder g).graph.labelOf? k' = some name → k.index ≤ k'.index := by
  have hafter : s.after (calls ++ [c]) = ((s.after calls).perform c).2 := List.foldl_append
  rw [hafter, builder_perform_of_name hc]
  exact Graph.findLabel?_label_eq_some_iff hne

private theorem reply_of_isLabel (s : Session n) (hc : c.isLabel = true) :
    (∃ x name, c = .label x name ∧ (s.perform c).1 = .ok (.node ⟨x.graph, x.handle, x.ty, false⟩)) ∨
    (∃ v name, c = .labelVariable v name ∧ (s.perform c).1 = .ok (.variable v)) ∨
    (∃ g h name, c = .request g (.label h name) ∧ (s.perform c).1 = .ok .done) := by
  cases c with
  | label x name => exact .inl ⟨x, name, rfl, rfl⟩
  | labelVariable v name => exact .inr (.inl ⟨v, name, rfl, rfl⟩)
  | request g r =>
    cases r with
    | label h name => exact .inr (.inr ⟨g, h, name, rfl, rfl⟩)
    | _ => exact absurd hc nofun
  | _ => exact absurd hc nofun

/-- Labels follow the calls of every run on new graphs. -/
theorem labels_follow (configs : Vector Config n) (calls : List (Call n)) (g : Fin n) :
    (ofConfigs configs).LabelsFollow calls g where
  named _ _ := labelOf?_run_eq_some_iff configs calls
  unnamed _ := labelOf?_run_eq_none_iff configs calls
  found _ _ := Graph.findLabel?_eq_some_iff
  missing _ := Graph.findLabel?_eq_none_iff
  renamed hc hne _ := findLabel?_after_named _ calls hc hne
  replied hc := reply_of_isLabel _ hc
  replies := zip_replies_filter _ calls
  vertices := ((relabels_after_filter _ calls).vertices_eq g).symm
  rebinds := ((relabels_after_filter _ calls).rebinds_eq g).symm
  values b h := ((relabels_after_filter _ calls).evaluate_eq g b h).symm

end Session

end ShaderExpr
