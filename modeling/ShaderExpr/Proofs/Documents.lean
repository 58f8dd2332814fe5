import ShaderExpr.Config.Document
import ShaderExpr.Proofs.Number.Values

/-!
# Configurations and their documents

A structure gives a document to each of its fields, by name or by place (`Document.given?`), and is read field by field.
So a configuration is read from what writes some of its fields, in any order and among unknown ones
(`Config.ofDocument?_of_writtenIn`); a list is read as the object of the same values (`Config.ofDocument?_unlisted`);
and a document is rejected exactly if a field that it gives is not one of its type (`Config.isSome_ofDocument?_iff`).
-/

namespace ShaderExpr

variable {d x : Document} {name : String} {names : List String} {deleted : String → Bool}

namespace Document

/-- A structure of some number of fields. -/
def IsStructure (count : Nat) : Document → Prop
  | object _ => True
  | list items => items.length ≤ count
  | _ => False

/-- What a structure gives for a field, by the name of the field or by its place. -/
def given? (names : List String) (name : String) : Document → Option Document
  | object fields => fields.lookup name
  | list items => items[names.idxOf name]?
  | _ => none

private theorem map_range_getElem? (hnames : names.Nodup) (items : List Document) :
    (List.range names.length).map (items[·]?) = names.map fun name => items[names.idxOf name]? := by
  refine List.ext_getElem ?_ fun i hi hi' => ?_
  · rw [List.length_map, List.length_map, List.length_range]
  · rw [List.getElem_map, List.getElem_map, List.getElem_range, hnames.idxOf_getElem]

theorem fields?_eq_some (hnames : names.Nodup) (hd : d.IsStructure names.length) :
    d.fields? names = some (names.map fun name => d.given? names name) := by
  cases d with
  | object fields => rfl
  | list items => exact (if_pos hd).trans (congrArg some (map_range_getElem? hnames items))
  | _ => exact False.elim hd

theorem fields?_eq_none (hd : ¬ d.IsStructure names.length) : d.fields? names = none := by
  cases d with
  | object fields => exact absurd trivial hd
  | list items => exact if_neg hd
  | _ => rfl

/-- A structure is read if its fields are. -/
theorem isSome_bind_fields?_iff {α : Type} {read? : List (Option Document) → Option α} (hnames : names.Nodup) :
    ((d.fields? names).bind read?).isSome ↔
      d.IsStructure names.length ∧ (read? (names.map fun name => d.given? names name)).isSome := by
  by_cases hd : d.IsStructure names.length
  · rw [fields?_eq_some hnames hd]
    exact (and_iff_right hd).symm
  · rw [fields?_eq_none hd]
    exact iff_of_false nofun fun h => hd h.1

/-- A field that is given must be readable. -/
theorem isSome_field?_iff {α : Type} {read? : Document → Option α} {Readable : Document → Prop} (standard : α)
    {given : Option Document} (hread : ∀ x, (read? x).isSome ↔ Readable x) :
    (field? read? standard given).isSome ↔ ∀ x, given = some x → Readable x := by
  cases given with
  | none => exact iff_of_true rfl nofun
  | some x => exact (hread x).trans ⟨fun h _ hx => Option.some.inj hx ▸ h, fun h => h x rfl⟩

theorem isSome_bind_iff {α β : Type} {first : Option α} {rest : α → Option β} {Readable : Prop}
    (hrest : ∀ a, (rest a).isSome ↔ Readable) : (first.bind rest).isSome ↔ first.isSome ∧ Readable := by
  cases first with
  | none => exact iff_of_false nofun fun h => nomatch h.1
  | some a => exact (hrest a).trans (and_iff_right rfl).symm

/-- A field is read if it is not deleted. -/
theorem field?_eq_of_read {α : Type} {read? : Document → Option α} {a : α} (hx : read? x = some a) (standard : α)
    (deleted : Bool) :
    field? read? standard (if deleted then none else some x) = some (if deleted then standard else a) := by
  cases deleted with
  | false => exact hx
  | true => rfl

/-- The object of the same values, if a document is a list of the values of fields. -/
def unlisted (names : List String) : Document → Document
  | list items => if items.length ≤ names.length then object (names.zip items) else list items
  | d => d

theorem lookup_zip (items : List Document) (hname : name ∈ names) :
    (names.zip items).lookup name = items[names.idxOf name]? := by
  induction names generalizing items with
  | nil => exact absurd hname List.not_mem_nil
  | cons first names ih =>
    cases items with
    | nil => rfl
    | cons item items =>
      rw [List.zip_cons_cons, List.lookup_cons, List.idxOf_cons]
      rcases eq_or_ne name first with rfl | hne
      · rw [beq_self_eq_true]
        rfl
      · rw [beq_false_of_ne hne, beq_false_of_ne hne.symm]
        exact ih items ((List.mem_cons.1 hname).resolve_left hne)

theorem fields?_object_zip (hnames : names.Nodup) {items : List Document} (hlength : items.length ≤ names.length) :
    (object (names.zip items)).fields? names = (list items).fields? names := by
  rw [fields?_eq_some hnames (d := object _) trivial, fields?_eq_some hnames (d := list items) hlength]
  exact congrArg some (List.map_congr_left fun name hname => lookup_zip items hname)

theorem fields?_list_eq_none {items : List Document} (hlength : names.length < items.length) :
    (list items).fields? names = none :=
  fields?_eq_none (not_le.2 hlength)

theorem fields?_unlisted (hnames : names.Nodup) (d : Document) :
    (d.unlisted names).fields? names = d.fields? names := by
  cases d with
  | list items =>
    unfold unlisted
    dsimp only
    split
    · exact fields?_object_zip hnames ‹_›
    · rfl
  | _ => rfl

theorem lookup_map_snd (f : String → Document → Document) (fields : List (String × Document)) (name : String) :
    (fields.map fun entry => (entry.1, f entry.1 entry.2)).lookup name = (fields.lookup name).map (f name) := by
  induction fields with
  | nil => rfl
  | cons entry fields ih =>
    rw [List.map_cons, List.lookup_cons, List.lookup_cons, ih]
    rcases eq_or_ne name entry.1 with rfl | hne
    · rw [beq_self_eq_true]
      rfl
    · rw [beq_false_of_ne hne]

theorem field?_map {α : Type} {read? : Document → Option α} {f : Document → Document} (hf : ∀ x, read? (f x) = read? x)
    (standard : α) (given : Option Document) : field? read? standard (given.map f) = field? read? standard given := by
  cases given with
  | none => rfl
  | some x => exact hf x

/-- An object with some entries, in any order and among others of unknown names. -/
def Lists (names : List String) (entries : List (String × Document)) (d : Document) : Prop :=
  ∃ fields others, d = object fields ∧ fields.Perm (entries ++ others) ∧ ∀ other ∈ others, other.1 ∉ names

theorem lists_object (names : List String) (entries : List (String × Document)) :
    (object entries).Lists names entries :=
  ⟨entries, [], rfl, .of_eq (List.append_nil entries).symm, List.forall_mem_nil _⟩

/-- A name with one entry at most is looked up at it. -/
theorem lookup_eq_some_iff_mem {fields : List (String × Document)}
    (hone : ∀ x y, (name, x) ∈ fields → (name, y) ∈ fields → x = y) :
    fields.lookup name = some x ↔ (name, x) ∈ fields := by
  constructor
  · intro h
    obtain ⟨before, after, rfl, _⟩ := List.lookup_eq_some_iff.1 h
    exact List.mem_append_right before List.mem_cons_self
  · intro hmem
    cases h : fields.lookup name with
    | none => exact absurd rfl (bne_iff_ne.1 (List.lookup_eq_none_iff.1 h _ hmem))
    | some y =>
      obtain ⟨before, after, rfl, _⟩ := List.lookup_eq_some_iff.1 h
      rw [hone x y hmem (List.mem_append_right before List.mem_cons_self)]

/-- An object gives the entries that are not deleted. -/
theorem Lists.given?_eq {entries : List (String × Document)}
    (h : d.Lists names (entries.filter fun entry => !deleted entry.1)) (hentries : (entries.map Prod.fst).Nodup)
    (hname : name ∈ names) (hx : (name, x) ∈ entries) :
    d.given? names name = if deleted name then none else some x := by
  obtain ⟨fields, others, rfl, hperm, hothers⟩ := h
  have hmem : ∀ y, (name, y) ∈ fields ↔ y = x ∧ deleted name = false := by
    intro y
    rw [hperm.mem_iff, List.mem_append, or_iff_left fun hy => hothers _ hy hname, List.mem_filter, Bool.not_eq_true']
    refine and_congr_left fun _ => ⟨fun hy => ?_, fun hy => hy ▸ hx⟩
    exact congrArg Prod.snd (List.inj_on_of_nodup_map hentries hy hx rfl)
  have hlookup : ∀ y, fields.lookup name = some y ↔ y = x ∧ deleted name = false := by
    intro y
    rw [← hmem]
    exact lookup_eq_some_iff_mem fun y z hy hz => ((hmem y).1 hy).1.trans ((hmem z).1 hz).1.symm
  show fields.lookup name = _
  split
  · rename_i hdeleted
    refine Option.eq_none_iff_forall_ne_some.2 fun y hy => ?_
    exact absurd hdeleted (Bool.eq_false_iff.1 ((hlookup y).1 hy).2)
  · rename_i hdeleted
    exact (hlookup x).2 ⟨rfl, Bool.eq_false_iff.2 hdeleted⟩

theorem Lists.fields?_eq {entries : List (String × Document)} (deleted : String → Bool)
    (h : d.Lists names (entries.filter fun entry => !deleted entry.1)) (hnames : names.Nodup)
    (hentries : entries.map Prod.fst = names) :
    d.fields? names = some (entries.map fun entry => if deleted entry.1 then none else some entry.2) := by
  subst hentries
  have hd : d.IsStructure (entries.map Prod.fst).length := by
    obtain ⟨_, _, rfl, _⟩ := h
    trivial
  rw [fields?_eq_some hnames hd, List.map_map]
  refine congrArg some (List.map_congr_left fun entry hentry => ?_)
  exact h.given?_eq hnames (List.mem_map_of_mem hentry) hentry

/-- The number that a document is, before it is rounded. -/
def datum? : Document → Option Datum
  | whole i => some (.ofInt i)
  | number x => some (.ofFloat x)
  | _ => none

def IsNumber (d : Document) : Prop :=
  d.datum?.isSome

def IsText (d : Document) : Prop :=
  ∃ s, d = text s

/-- A component is a name, or an object with the name and nothing else. -/
def NamesAxis (a : Axis) (d : Document) : Prop :=
  d = text a.name ∨ d = object [(a.name, null)]

def IsAxis (d : Document) : Prop :=
  ∃ a, d.NamesAxis a

/-- A document is exactly a number of single precision, which has a sign also if it is zero. -/
def IsExactly (f : Float32) (d : Document) : Prop :=
  ∃ number, d.datum? = some number ∧ number.Same (.ofFloat32 f)

theorem isSome_float32?_iff : d.float32?.isSome ↔ d.IsNumber := by
  unfold IsNumber
  cases d with
  | whole i =>
    unfold float32?
    dsimp only
    split <;> exact iff_of_true rfl rfl
  | number f => exact iff_of_true rfl rfl
  | _ => exact iff_of_false nofun nofun

/-- A number of single precision is kept, also by way of double precision. -/
theorem float32?_of_isExactly {f : Float32} (h : d.IsExactly f) : d.float32? = some f := by
  obtain ⟨number, hd, hsame⟩ := h
  cases d with
  | whole i =>
    cases hd
    unfold float32?
    dsimp only
    split
    · rw [Datum.toFloat32_of_same hsame]
    · rw [Datum.toFloat32_of_same (Datum.same_ofFloat_toFloat hsame)]
  | number x =>
    cases hd
    exact congrArg some (Datum.toFloat32_of_same hsame)
  | _ => exact nomatch hd

theorem isSome_text?_iff : d.text?.isSome ↔ d.IsText := by
  cases d with
  | text s => exact iff_of_true rfl ⟨s, rfl⟩
  | _ => exact iff_of_false nofun nofun

private theorem ofName?_eq_some_iff {s : String} {a : Axis} : Axis.ofName? s = some a ↔ s = a.name := by
  constructor
  · intro h
    unfold Axis.ofName? at h
    split at h <;> cases h <;> rfl
  · rintro rfl
    exact a.ofName?_name

theorem axis?_eq_some_iff {a : Axis} : d.axis? = some a ↔ d.NamesAxis a := by
  unfold axis? NamesAxis
  split
  · rw [ofName?_eq_some_iff, text.injEq, or_iff_left nofun]
  · rw [ofName?_eq_some_iff, or_iff_right nofun]
    simp
  · rename_i htext hobject
    exact iff_of_false nofun fun h => h.elim (htext _) (hobject _)

theorem isSome_axis?_iff : d.axis?.isSome ↔ d.IsAxis := by
  rw [Option.isSome_iff_exists]
  exact exists_congr fun a => axis?_eq_some_iff

/-- A structure whose fields, as far as they are given, are documents of their types. -/
def WellTyped (fields : List (String × (Document → Prop))) (d : Document) : Prop :=
  d.IsStructure fields.length ∧
    fields.Forall fun field => ∀ x, d.given? (fields.map Prod.fst) field.1 = some x → field.2 x

end Document

open Document

namespace DepthBias

def fieldNames : List String :=
  ["divisor", "component"]

/-- The standard values in the place of the fields that are deleted. -/
def without (b : DepthBias) (deleted : String → Bool) : DepthBias where
  divisor := if deleted "divisor" then standard.divisor else b.divisor
  component := if deleted "component" then standard.component else b.component

/-- A document has the fields of a depth bias, except those that are deleted. -/
def WrittenIn (b : DepthBias) (deleted : String → Bool) (d : Document) : Prop :=
  ∃ divisor component, divisor.IsExactly b.divisor ∧ component.NamesAxis b.component ∧
    d.Lists fieldNames ([("divisor", divisor), ("component", component)].filter fun entry => !deleted entry.1)

def WellTyped : Document → Prop :=
  Document.WellTyped [("divisor", IsNumber), ("component", IsAxis)]

theorem nodup_fieldNames : fieldNames.Nodup := by
  decide

theorem ofFields?_eq_some {given given' : Option Document} {b : DepthBias}
    (hdivisor : field? float32? standard.divisor given = some b.divisor)
    (hcomponent : field? axis? standard.component given' = some b.component) : ofFields? [given, given'] = some b := by
  unfold ofFields?
  dsimp only
  rw [hdivisor, hcomponent]
  rfl

theorem ofDocument?_of_writtenIn {b : DepthBias} (h : b.WrittenIn deleted d) :
    ofDocument? d = some (b.without deleted) := by
  obtain ⟨divisor, component, hdivisor, hcomponent, hd⟩ := h
  refine (congrArg (·.bind ofFields?) (hd.fields?_eq deleted nodup_fieldNames rfl)).trans (ofFields?_eq_some ?_ ?_)
  · exact field?_eq_of_read (float32?_of_isExactly hdivisor) _ _
  · exact field?_eq_of_read (axis?_eq_some_iff.2 hcomponent) _ _

theorem isSome_ofFields?_iff {divisor component : Option Document} : (ofFields? [divisor, component]).isSome ↔
    (∀ x, divisor = some x → x.IsNumber) ∧ ∀ x, component = some x → x.IsAxis := by
  rw [← isSome_field?_iff standard.divisor fun _ => isSome_float32?_iff,
    ← isSome_field?_iff standard.component fun _ => isSome_axis?_iff]
  exact isSome_bind_iff fun _ => (isSome_bind_iff fun _ => iff_of_true rfl trivial).trans (and_iff_left trivial)

theorem isSome_ofDocument?_iff : (ofDocument? d).isSome ↔ WellTyped d :=
  (isSome_bind_fields?_iff nodup_fieldNames).trans (and_congr_right fun _ => isSome_ofFields?_iff)

end DepthBias

namespace InputNames

def fieldNames : List String :=
  ["uv", "z_index", "view_matrix", "world_matrix"]

/-- The standard names in the place of those that are deleted. -/
def without (names : InputNames) (deleted : String → Bool) : InputNames where
  uv := if deleted "uv" then standard.uv else names.uv
  zIndex := if deleted "z_index" then standard.zIndex else names.zIndex
  viewMatrix := if deleted "view_matrix" then standard.viewMatrix else names.viewMatrix
  worldMatrix := if deleted "world_matrix" then standard.worldMatrix else names.worldMatrix

/-- A document has the names, except those that are deleted. -/
def WrittenIn (names : InputNames) (deleted : String → Bool) (d : Document) : Prop :=
  d.Lists fieldNames
    ([("uv", text names.uv), ("z_index", text names.zIndex), ("view_matrix", text names.viewMatrix),
      ("world_matrix", text names.worldMatrix)].filter fun entry => !deleted entry.1)

def WellTyped : Document → Prop :=
  Document.WellTyped [("uv", IsText), ("z_index", IsText), ("view_matrix", IsText), ("world_matrix", IsText)]

theorem nodup_fieldNames : fieldNames.Nodup := by
  decide

theorem ofFields?_eq_some {given₁ given₂ given₃ given₄ : Option Document} {names : InputNames}
    (huv : field? text? standard.uv given₁ = some names.uv)
    (hzIndex : field? text? standard.zIndex given₂ = some names.zIndex)
    (hviewMatrix : field? text? standard.viewMatrix given₃ = some names.viewMatrix)
    (hworldMatrix : field? text? standard.worldMatrix given₄ = some names.worldMatrix) :
    ofFields? [given₁, given₂, given₃, given₄] = some names := by
  unfold ofFields?
  dsimp only
  rw [huv, hzIndex, hviewMatrix, hworldMatrix]
  rfl

theorem ofDocument?_of_writtenIn {names : InputNames} (h : names.WrittenIn deleted d) :
    ofDocument? d = some (names.without deleted) := by
  have htext : ∀ s standard (deleted : Bool),
      field? text? standard (if deleted then none else some (text s)) = some (if deleted then standard else s) :=
    fun _ => field?_eq_of_read rfl
  refine (congrArg (·.bind ofFields?) (Document.Lists.fields?_eq deleted h nodup_fieldNames rfl)).trans ?_
  exact ofFields?_eq_some (htext _ _ _) (htext _ _ _) (htext _ _ _) (htext _ _ _)

theorem isSome_ofFields?_iff {uv zIndex viewMatrix worldMatrix : Option Document} :
    (ofFields? [uv, zIndex, viewMatrix, worldMatrix]).isSome ↔
      (∀ x, uv = some x → x.IsText) ∧ (∀ x, zIndex = some x → x.IsText) ∧ (∀ x, viewMatrix = some x → x.IsText) ∧
        ∀ x, worldMatrix = some x → x.IsText := by
  rw [← isSome_field?_iff standard.uv fun _ => isSome_text?_iff,
    ← isSome_field?_iff standard.zIndex fun _ => isSome_text?_iff,
    ← isSome_field?_iff standard.viewMatrix fun _ => isSome_text?_iff,
    ← isSome_field?_iff standard.worldMatrix fun _ => isSome_text?_iff]
  refine isSome_bind_iff fun _ => isSome_bind_iff fun _ => isSome_bind_iff fun _ => ?_
  exact (isSome_bind_iff fun _ => iff_of_true rfl trivial).trans (and_iff_left trivial)

theorem isSome_ofDocument?_iff : (ofDocument? d).isSome ↔ WellTyped d :=
  (isSome_bind_fields?_iff nodup_fieldNames).trans (and_congr_right fun _ => isSome_ofFields?_iff)

end InputNames

/-! ### Configurations -/

namespace Config

def fieldNames : List String :=
  ["depth_bias", "names"]

/-- The standard values in the place of the fields whose paths are deleted. -/
def without (c : Config) (deleted : List String → Bool) : Config where
  depthBias :=
    if deleted ["depth_bias"] then .standard else c.depthBias.without fun field => deleted ["depth_bias", field]
  names := if deleted ["names"] then .standard else c.names.without fun field => deleted ["names", field]

/-- A document has the fields of a configuration, except those whose paths are deleted. -/
def WrittenIn (c : Config) (deleted : List String → Bool) (d : Document) : Prop :=
  ∃ depthBias names, c.depthBias.WrittenIn (fun field => deleted ["depth_bias", field]) depthBias ∧
    c.names.WrittenIn (fun field => deleted ["names", field]) names ∧
    d.Lists fieldNames ([("depth_bias", depthBias), ("names", names)].filter fun entry => !deleted [entry.1])

def WellTyped : Document → Prop :=
  Document.WellTyped [("depth_bias", DepthBias.WellTyped), ("names", InputNames.WellTyped)]

theorem nodup_fieldNames : fieldNames.Nodup := by
  decide

theorem ofFields?_eq_some {given given' : Option Document} {c : Config}
    (hdepthBias : field? DepthBias.ofDocument? .standard given = some c.depthBias)
    (hnames : field? InputNames.ofDocument? .standard given' = some c.names) : ofFields? [given, given'] = some c := by
  unfold ofFields?
  dsimp only
  rw [hdepthBias, hnames]
  rfl

/-- What some fields are written in is read with the standard values of the others. -/
theorem ofDocument?_of_writtenIn {c : Config} {deleted : List String → Bool} (h : c.WrittenIn deleted d) :
    ofDocument? d = some (c.without deleted) := by
  obtain ⟨depthBias, names, hdepthBias, hnames, hd⟩ := h
  have hfields := Document.Lists.fields?_eq (fun field => deleted [field]) hd nodup_fieldNames rfl
  refine (congrArg (·.bind ofFields?) hfields).trans (ofFields?_eq_some ?_ ?_)
  · exact field?_eq_of_read (DepthBias.ofDocument?_of_writtenIn hdepthBias) _ _
  · exact field?_eq_of_read (InputNames.ofDocument?_of_writtenIn hnames) _ _

example : ofDocument? (.object [("names", .object [("uv", .text "texcoord0"), ("unknown", .null)]),
    ("depth_bias", .object [("component", .text "y")])]) =
      some ⟨{ DepthBias.standard with component := .y }, { InputNames.standard with uv := "texcoord0" }⟩ :=
  rfl

private theorem isExactly_widened {f : Float32} (hf : (Datum.ofFloat32 f).isFinite) :
    (Document.number (Datum.ofFloat32 f).toFloat).IsExactly f :=
  ⟨_, rfl, Datum.same_ofFloat_toFloat (.refl hf)⟩

/-- All fields are written if the divisor is a number. -/
theorem writtenIn_toDocument {c : Config} (hc : (Datum.ofFloat32 c.depthBias.divisor).isFinite) :
    c.WrittenIn (fun _ => false) c.toDocument :=
  ⟨_, _, ⟨_, _, isExactly_widened hc, .inl rfl, lists_object _ _⟩, lists_object _ _, lists_object _ _⟩

theorem exists_writtenIn {c : Config} (hc : (Datum.ofFloat32 c.depthBias.divisor).isFinite)
    (deleted : List String → Bool) : ∃ d, c.WrittenIn deleted d :=
  ⟨_, _, _, ⟨_, _, isExactly_widened hc, .inl rfl, lists_object _ _⟩, lists_object _ _, lists_object _ _⟩

theorem isSome_ofFields?_iff {depthBias names : Option Document} : (ofFields? [depthBias, names]).isSome ↔
    (∀ x, depthBias = some x → DepthBias.WellTyped x) ∧ ∀ x, names = some x → InputNames.WellTyped x := by
  rw [← isSome_field?_iff .standard fun _ => DepthBias.isSome_ofDocument?_iff,
    ← isSome_field?_iff .standard fun _ => InputNames.isSome_ofDocument?_iff]
  exact isSome_bind_iff fun _ => (isSome_bind_iff fun _ => iff_of_true rfl trivial).trans (and_iff_left trivial)

/-- A document is rejected if some field that it gives is not of its type, and only then. -/
theorem isSome_ofDocument?_iff : (ofDocument? d).isSome ↔ WellTyped d :=
  (isSome_bind_fields?_iff nodup_fieldNames).trans (and_congr_right fun _ => isSome_ofFields?_iff)

/-- The object in the place of a list for the field of a name. -/
def unlistedField : String → Document → Document
  | "depth_bias", d => d.unlisted DepthBias.fieldNames
  | "names", d => d.unlisted InputNames.fieldNames
  | _, d => d

/-- Objects in the place of all lists that stand for structures. -/
def unlisted (d : Document) : Document :=
  match d.unlisted fieldNames with
  | .object fields => .object (fields.map fun entry => (entry.1, unlistedField entry.1 entry.2))
  | d => d

private theorem ofDocument?_object_map (fields : List (String × Document)) :
    ofDocument? (.object (fields.map fun entry => (entry.1, unlistedField entry.1 entry.2))) =
      ofDocument? (.object fields) := by
  have hdepthBias : ∀ x, DepthBias.ofDocument? (unlistedField "depth_bias" x) = DepthBias.ofDocument? x :=
    fun x => congrArg (·.bind DepthBias.ofFields?) (fields?_unlisted DepthBias.nodup_fieldNames x)
  have hnames : ∀ x, InputNames.ofDocument? (unlistedField "names" x) = InputNames.ofDocument? x :=
    fun x => congrArg (·.bind InputNames.ofFields?) (fields?_unlisted InputNames.nodup_fieldNames x)
  show ofFields? [List.lookup _ _, List.lookup _ _] = ofFields? [List.lookup _ _, List.lookup _ _]
  unfold ofFields?
  dsimp only
  rw [lookup_map_snd, lookup_map_snd, field?_map hdepthBias, field?_map hnames]

/-- Lists are read as objects, also inside of others. -/
theorem ofDocument?_unlisted (d : Document) : ofDocument? (unlisted d) = ofDocument? d := by
  have hlevel : ofDocument? (d.unlisted fieldNames) = ofDocument? d :=
    congrArg (·.bind ofFields?) (fields?_unlisted nodup_fieldNames d)
  rw [← hlevel]
  unfold unlisted
  cases d.unlisted fieldNames with
  | object fields => exact ofDocument?_object_map fields
  | _ => rfl

/-- What is read from documents of configurations, and what is rejected. -/
structure ReadsDocuments : Prop where
  /-- A configuration is read back. -/
  roundTrip {c : Config} (hc : (Datum.ofFloat32 c.depthBias.divisor).isFinite) :
    c.WrittenIn (fun _ => false) c.toDocument ∧ ofDocument? c.toDocument = some c
  /-- Fields that are deleted have their standard values, in any order of the others. -/
  deleted {c : Config} {deleted : List String → Bool} {d : Document} (h : c.WrittenIn deleted d) :
    ofDocument? d = some (c.without deleted)
  exists_deleted {c : Config} (hc : (Datum.ofFloat32 c.depthBias.divisor).isFinite) (deleted : List String → Bool) :
    ∃ d, c.WrittenIn deleted d
  /-- A list is read as the object of its values. -/
  depthBias_list {items : List Document} (h : items.length ≤ DepthBias.fieldNames.length) :
    DepthBias.ofDocument? (.list items) = DepthBias.ofDocument? (.object (DepthBias.fieldNames.zip items))
  names_list {items : List Document} (h : items.length ≤ InputNames.fieldNames.length) :
    InputNames.ofDocument? (.list items) = InputNames.ofDocument? (.object (InputNames.fieldNames.zip items))
  list {items : List Document} (h : items.length ≤ fieldNames.length) :
    ofDocument? (.list items) = ofDocument? (.object (fieldNames.zip items))
  nested_list (d : Document) : ofDocument? d = ofDocument? (unlisted d)
  /-- A list that is longer is rejected. -/
  depthBias_longer {items : List Document} (h : DepthBias.fieldNames.length < items.length) :
    DepthBias.ofDocument? (.list items) = none
  names_longer {items : List Document} (h : InputNames.fieldNames.length < items.length) :
    InputNames.ofDocument? (.list items) = none
  longer {items : List Document} (h : fieldNames.length < items.length) : ofDocument? (.list items) = none
  /-- A document is rejected for a field that is not of its type, whatever the others are. -/
  rejected (d : Document) : ofDocument? d = none ↔ ¬ WellTyped d

theorem readsDocuments : ReadsDocuments where
  roundTrip hc := ⟨writtenIn_toDocument hc, ofDocument?_of_writtenIn (writtenIn_toDocument hc)⟩
  deleted h := ofDocument?_of_writtenIn h
  exists_deleted hc deleted := exists_writtenIn hc deleted
  depthBias_list h := congrArg (·.bind DepthBias.ofFields?) (fields?_object_zip DepthBias.nodup_fieldNames h).symm
  names_list h := congrArg (·.bind InputNames.ofFields?) (fields?_object_zip InputNames.nodup_fieldNames h).symm
  list h := congrArg (·.bind ofFields?) (fields?_object_zip nodup_fieldNames h).symm
  nested_list d := (ofDocument?_unlisted d).symm
  depthBias_longer h := congrArg (·.bind DepthBias.ofFields?) (fields?_list_eq_none h)
  names_longer h := congrArg (·.bind InputNames.ofFields?) (fields?_list_eq_none h)
  longer h := congrArg (·.bind ofFields?) (fields?_list_eq_none h)
  rejected d := by rw [← isSome_ofDocument?_iff, Option.not_isSome_iff_eq_none]

end Config

end ShaderExpr
