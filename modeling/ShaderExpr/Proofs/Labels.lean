import ShaderExpr.Proofs.Making
import ShaderExpr.Proofs.Reuse

/-!
# Labels and their lookup

A vertex has the name that was asked for last (`Session.labelOf?_after_eq_some_iff`), by a call or by the first building
of an input that is well known.  A name is looked up at the least vertex that has it now
(`Graph.findLabel?_eq_some_iff`), so a vertex that gets another name gives way to the next one
(`Graph.findLabel?_label_eq_some_iff`).
-/

namespace ShaderExpr

variable {n : Nat}

namespace Graph

variable {g : Graph} {h k : Handle} {name name' : String}

theorem labelOf?_label_self (g : Graph) (h : Handle) (name : String) : (g.label h name).labelOf? h = some name :=
  List.lookup_cons_self

theorem labelOf?_label_ne (name : String) (hk : k ≠ h) : (g.label h name).labelOf? k = g.labelOf? k := by
  show ((h, name) :: g.labels).lookup k = _
  rw [List.lookup_cons, beq_false_of_ne hk]
  rfl

theorem mem_labels_of_labelOf? (hh : g.labelOf? h = some name) : (h, name) ∈ g.labels := by
  obtain ⟨before, after, hlist, _⟩ := List.lookup_eq_some_iff.1 hh
  rw [hlist]
  exact List.mem_append_right before List.mem_cons_self

private theorem mem_candidates {i : Nat} :
    (i ∈ (g.labels.map fun entry => entry.1.index).filter fun i => g.labelOf? ⟨i⟩ = some name) ↔
      g.labelOf? ⟨i⟩ = some name := by
  rw [List.mem_filter, decide_eq_true_iff]
  refine and_iff_right_of_imp fun hi => ?_
  exact List.mem_map.2 ⟨_, mem_labels_of_labelOf? hi, rfl⟩

/-- A name is found at the least vertex that has it. -/
theorem findLabel?_eq_some_iff : g.findLabel? name = some h ↔
    g.labelOf? h = some name ∧ ∀ k, g.labelOf? k = some name → h.index ≤ k.index := by
  unfold findLabel?
  rw [Option.map_eq_some_iff]
  constructor
  · rintro ⟨i, hi, rfl⟩
    obtain ⟨hmem, hle⟩ := List.min?_eq_some_iff.1 hi
    exact ⟨mem_candidates.1 hmem, fun k hk => hle _ (mem_candidates.2 hk)⟩
  · rintro ⟨hh, hle⟩
    refine ⟨h.index, List.min?_eq_some_iff.2 ⟨mem_candidates.2 hh, ?_⟩, rfl⟩
    exact fun i hi => hle ⟨i⟩ (mem_candidates.1 hi)

/-- A name is not found if no vertex has it. -/
theorem findLabel?_eq_none_iff : g.findLabel? name = none ↔ ∀ h, g.labelOf? h ≠ some name := by
  unfold findLabel?
  rw [Option.map_eq_none_iff, List.min?_eq_none_iff, List.eq_nil_iff_forall_not_mem]
  constructor
  · exact fun hnone h hh => hnone h.index (mem_candidates.2 hh)
  · exact fun hnone i hi => hnone ⟨i⟩ (mem_candidates.1 hi)

/-- A vertex that gets another name is not found any more, and the next one is. -/
theorem findLabel?_label_eq_some_iff (hne : name ≠ name') : (g.label h name').findLabel? name = some k ↔
    k ≠ h ∧ g.labelOf? k = some name ∧ ∀ k', k' ≠ h → g.labelOf? k' = some name → k.index ≤ k'.index := by
  have hlabel : ∀ k', (g.label h name').labelOf? k' = some name ↔ k' ≠ h ∧ g.labelOf? k' = some name := by
    intro k'
    by_cases hk : k' = h
    · rw [hk, labelOf?_label_self, Option.some_inj]
      exact iff_of_false hne.symm fun hh => hh.1 rfl
    · rw [labelOf?_label_ne name' hk]
      exact (and_iff_right hk).symm
  rw [findLabel?_eq_some_iff, hlabel, and_assoc]
  simp only [hlabel, and_imp]

example :
    let g := ((empty.label ⟨4⟩ "bias").label ⟨1⟩ "bias").label ⟨2⟩ "uv"
    g.findLabel? "bias" = some ⟨1⟩ ∧ (g.label ⟨1⟩ "uv").findLabel? "bias" = some ⟨4⟩ ∧
      (g.label ⟨1⟩ "uv").findLabel? "uv" = some ⟨1⟩ := by
  decide

end Graph

/-- An input that is made has its name, because only vertices that are made later are named later. -/
theorem Builder.Makes.labelOf?_eq {b b' : Builder} (h : b.Makes b') {c : Composite} {name : String} {k : Handle}
    (hname : c.label? b.config.names = some name) (hnone : b.composites c = none) (hkept : b'.composites c = some k) :
    b'.graph.labelOf? k = some name := by
  suffices hall : b'.config = b.config ∧
      ∀ k, b'.composites c = some k → k.index < b'.graph.size ∧ b'.graph.labelOf? k = some name from
    (hall.2 k hkept).2
  clear hkept
  induction h with
  | refl => exact ⟨rfl, fun k hk => absurd (hnone.symm.trans hk) nofun⟩
  | @tail b₁ b₂ _ hstep ih =>
    obtain ⟨hconfig, ih⟩ := ih
    rw [← hconfig] at hname
    cases hstep with
    | recorded | announced =>
      refine ⟨hconfig, fun k hk => ?_⟩
      obtain ⟨hlt, hlabel⟩ := ih k hk
      refine ⟨?_, hlabel⟩
      show k.index < (b₁.graph.push _).size
      rw [Graph.size_push]
      exact Nat.lt_succ_of_lt hlt
    | @kept d hd h =>
      have hne : c ≠ d := by
        rintro rfl
        exact absurd (hname.symm.trans hd) nofun
      refine ⟨hconfig, fun k hk => ?_⟩
      rw [Builder.composites_shared_ne h hne] at hk
      exact ih k hk
    | @named d name' hname' _ =>
      refine ⟨hconfig, fun k hk => ?_⟩
      show k.index < (b₁.graph.push _).size ∧ ((b₁.graph.push _).label b₁.graph.next name').labelOf? k = _
      rw [Graph.size_push]
      by_cases hcd : c = d
      · -- the new vertex has got the name just now
        subst hcd
        cases (Builder.composites_shared _ c _).symm.trans hk
        cases hname.symm.trans hname'
        exact ⟨Nat.lt_succ_self _, Graph.labelOf?_label_self _ _ _⟩
      · have hold : b₁.composites c = some k := (Builder.composites_shared_ne _ hcd).symm.trans hk
        obtain ⟨hlt, hlabel⟩ := ih k hold
        have hne : k ≠ b₁.graph.next := by
          rintro rfl
          exact absurd hlt (Nat.lt_irrefl _)
        rw [Graph.labelOf?_label_ne name' hne]
        exact ⟨Nat.lt_succ_of_lt hlt, hlabel⟩

namespace Session

variable {s : Session n} {c : Call n} {calls : List (Call n)} {g : Fin n} {h : Handle} {name : String}

/-- A call of a session names a vertex of a graph. -/
def Names (s : Session n) (c : Call n) (g : Fin n) (h : Handle) (name : String) : Prop :=
  c.Names g (s.builder g) ((s.perform c).2.builder g) h name

/-- A call that asks for a name names the vertex and does nothing else. -/
theorem builder_perform_of_name (hc : c.name? g = some (h, name)) :
    (s.perform c).2.builder g = (s.builder g).labelled h name := by
  cases c with
  | label x name' =>
    obtain ⟨rfl, heq⟩ := Option.ite_none_right_eq_some.1 hc
    cases heq
    exact builder_on_self s _ _
  | labelVariable v name' =>
    obtain ⟨rfl, heq⟩ := Option.ite_none_right_eq_some.1 hc
    cases heq
    exact builder_on_self s _ _
  | request g' r =>
    cases r with
    | label h' name' =>
      obtain ⟨rfl, heq⟩ := Option.ite_none_right_eq_some.1 hc
      cases heq
      exact builder_on_self s _ _
    | _ => exact absurd hc nofun
  | _ => exact absurd hc nofun

theorem makes_perform_composite (s : Session n) (g : Fin n) (d : Composite) :
    (s.builder g).Makes ((s.perform (.composite g d)).2.builder g) := by
  obtain ⟨x, b', hrun, _⟩ := d.returns_kept g (s.builder g)
  have hmakes := d.makes_build g _ x b' hrun
  show (s.builder g).Makes ((s.on g _).2.builder g)
  rw [builder_on_self, Build.builder_run_map, hrun]
  exact hmakes

/-- A vertex that is named has the name. -/
theorem Names.labelOf?_eq (hnames : s.Names c g h name) :
    ((s.perform c).2.builder g).graph.labelOf? h = some name := by
  cases hnames with
  | asked hc =>
    rw [builder_perform_of_name hc]
    exact Graph.labelOf?_label_self _ _ _
  | input hc _ hname hold hkept _ =>
    subst hc
    exact (s.makes_perform_composite g _).labelOf?_eq hname hold hkept

/-- What a call does to the name of a vertex. -/
theorem labelOf?_perform_eq_some_iff : ((s.perform c).2.builder g).graph.labelOf? h = some name ↔
    s.Names c g h name ∨ (¬ ∃ name', s.Names c g h name') ∧ (s.builder g).graph.labelOf? h = some name := by
  have hcases := (effect_perform s c g).labels h
  constructor
  · intro hlabel
    rcases hcases with hsame | ⟨name', hname', hnames⟩
    · by_cases hnames : ∃ name', s.Names c g h name'
      · obtain ⟨name', hnames⟩ := hnames
        cases hlabel.symm.trans hnames.labelOf?_eq
        exact .inl hnames
      · exact .inr ⟨hnames, hsame.symm.trans hlabel⟩
    · cases hlabel.symm.trans hname'
      exact .inl hnames
  · rintro (hnames | ⟨hnone, hlabel⟩)
    · exact hnames.labelOf?_eq
    · rcases hcases with hsame | ⟨name', _, hnames⟩
      · exact hsame.trans hlabel
      · exact absurd ⟨name', hnames⟩ hnone

/-- Some call of a run names a vertex. -/
def NamedIn (s : Session n) (calls : List (Call n)) (g : Fin n) (h : Handle) : Prop :=
  ∃ earlier c later name, calls = earlier ++ c :: later ∧ (s.after earlier).Names c g h name

/-- A call of a run gives a vertex its name, and no later one names it. -/
def NamedLast (s : Session n) (calls : List (Call n)) (g : Fin n) (h : Handle) (name : String) : Prop :=
  ∃ earlier c later, calls = earlier ++ c :: later ∧ (s.after earlier).Names c g h name ∧
    ¬ ((s.after earlier).perform c).2.NamedIn later g h

theorem not_namedIn_nil : ¬ s.NamedIn [] g h := by
  rintro ⟨earlier, c, later, _, hcalls, _⟩
  exact absurd hcalls.symm (List.append_ne_nil_of_right_ne_nil earlier (List.cons_ne_nil c later))

theorem not_namedLast_nil : ¬ s.NamedLast [] g h name := by
  rintro ⟨earlier, c, later, hcalls, _⟩
  exact absurd hcalls.symm (List.append_ne_nil_of_right_ne_nil earlier (List.cons_ne_nil c later))

theorem namedIn_cons : s.NamedIn (c :: calls) g h ↔
    (∃ name, s.Names c g h name) ∨ (s.perform c).2.NamedIn calls g h := by
  constructor
  · rintro ⟨earlier, c', later, name, hcalls, hnames⟩
    rcases List.cons_eq_append_iff.1 hcalls with ⟨rfl, hhead⟩ | ⟨earlier', rfl, htail⟩
    · cases hhead
      exact .inl ⟨name, hnames⟩
    · exact .inr ⟨earlier', c', later, name, htail, hnames⟩
  · rintro (⟨name, hnames⟩ | ⟨earlier, c', later, name, rfl, hnames⟩)
    · exact ⟨[], c, calls, name, rfl, hnames⟩
    · exact ⟨c :: earlier, c', later, name, rfl, hnames⟩

theorem namedLast_cons : s.NamedLast (c :: calls) g h name ↔
    s.Names c g h name ∧ ¬ (s.perform c).2.NamedIn calls g h ∨ (s.perform c).2.NamedLast calls g h name := by
  constructor
  · rintro ⟨earlier, c', later, hcalls, hnames, hlater⟩
    rcases List.cons_eq_append_iff.1 hcalls with ⟨rfl, hhead⟩ | ⟨earlier', rfl, htail⟩
    · cases hhead
      exact .inl ⟨hnames, hlater⟩
    · exact .inr ⟨earlier', c', later, htail, hnames, hlater⟩
  · rintro (⟨hnames, hlater⟩ | ⟨earlier, c', later, rfl, hnames, hlater⟩)
    · exact ⟨[], c, calls, rfl, hnames, hlater⟩
    · exact ⟨c :: earlier, c', later, rfl, hnames, hlater⟩

/-- After a run a vertex has the name that was asked for last, or else the name that it had before. -/
theorem labelOf?_after_eq_some_iff (s : Session n) (calls : List (Call n)) :
    ((s.after calls).builder g).graph.labelOf? h = some name ↔
      s.NamedLast calls g h name ∨ ¬ s.NamedIn calls g h ∧ (s.builder g).graph.labelOf? h = some name := by
  induction calls generalizing s with
  | nil =>
    show (s.builder g).graph.labelOf? h = some name ↔ _
    rw [or_iff_right not_namedLast_nil]
    exact (and_iff_right not_namedIn_nil).symm
  | cons c calls ih =>
    show (((s.perform c).2.after calls).builder g).graph.labelOf? h = some name ↔ _
    rw [ih, labelOf?_perform_eq_some_iff, namedLast_cons, namedIn_cons]
    tauto

/-- A vertex that is named is named by some call last. -/
theorem exists_namedLast_iff : (∃ name, s.NamedLast calls g h name) ↔ s.NamedIn calls g h := by
  constructor
  · rintro ⟨name, earlier, c, later, hcalls, hnames, _⟩
    exact ⟨earlier, c, later, name, hcalls, hnames⟩
  · induction calls generalizing s with
    | nil => exact fun hin => absurd hin not_namedIn_nil
    | cons c calls ih =>
      intro hin
      by_cases hlater : (s.perform c).2.NamedIn calls g h
      · obtain ⟨name, hlast⟩ := ih hlater
        exact ⟨name, namedLast_cons.2 (.inr hlast)⟩
      · obtain ⟨name, hnames⟩ := (namedIn_cons.1 hin).resolve_right hlater
        exact ⟨name, namedLast_cons.2 (.inl ⟨hnames, hlater⟩)⟩

theorem labelOf?_ofConfigs (configs : Vector Config n) (g : Fin n) (h : Handle) :
    ((ofConfigs configs).builder g).graph.labelOf? h = none := by
  rw [builder_ofConfigs]
  rfl

theorem labelOf?_run_eq_some_iff (configs : Vector Config n) (calls : List (Call n)) :
    (((ofConfigs configs).after calls).builder g).graph.labelOf? h = some name ↔
      (ofConfigs configs).NamedLast calls g h name := by
  rw [labelOf?_after_eq_some_iff, labelOf?_ofConfigs]
  exact or_iff_left fun hnone => absurd hnone.2 nofun

theorem labelOf?_run_eq_none_iff (configs : Vector Config n) (calls : List (Call n)) :
    (((ofConfigs configs).after calls).builder g).graph.labelOf? h = none ↔
      ¬ (ofConfigs configs).NamedIn calls g h := by
  rw [← exists_namedLast_iff, not_exists, Option.eq_none_iff_forall_ne_some]
  exact forall_congr' fun name => (labelOf?_run_eq_some_iff configs calls).not

end Session

end ShaderExpr
