import DgcRestApi.Processor.Values

/-!
# Which structs are accepted

`_validate_struct_values` compares two lengths and looks for the first value of each schema
entry. When no schema lists a name twice, that leaves exactly the values of the schema, in any
order and at every depth.
-/

namespace DgcRestApi
open Keyed

/-- At every level of the schema the names are pairwise distinct. -/
inductive DistinctNames : List PropertySchema → Prop
  | intro {cols : List PropertySchema} (names : (cols.map PropertySchema.name).Nodup)
      (nested : ∀ col ∈ cols, col.dataType = .STRUCT → DistinctNames col.structProperties) :
      DistinctNames cols

/-- The values are, up to order, one for each entry, of its name and data type, and at a struct
in turn the values of its schema. -/
inductive Instantiates : List PropertySchema → List PropertyValue → Prop
  | intro {cols : List PropertySchema} {vs ordered : List PropertyValue} (order : vs.Perm ordered)
      (each : List.Forall₂ (fun col v => v.name = col.name ∧ v.dataType = col.dataType)
        cols ordered)
      (nested : ∀ e ∈ cols.zip ordered, e.1.dataType = .STRUCT →
        Instantiates e.1.structProperties e.2.structValues) : Instantiates cols vs

/-- The value is one of the entry. -/
structure MemberOf (col : PropertySchema) (v : PropertyValue) : Prop where
  name : v.name = col.name
  dataType : v.dataType = col.dataType
  nested : col.dataType = .STRUCT → Instantiates col.structProperties v.structValues

variable {cols cols' : List PropertySchema} {vs vs' : List PropertyValue}
variable {col col' : PropertySchema} {v v' : PropertyValue}

theorem DistinctNames.names (hd : DistinctNames cols) :
    (cols.map PropertySchema.name).Nodup := by
  cases hd with
  | intro names _ => exact names

theorem DistinctNames.nested (hd : DistinctNames cols) (hcol : col ∈ cols)
    (htype : col.dataType = .STRUCT) : DistinctNames col.structProperties := by
  cases hd with
  | intro _ nested => exact nested col hcol htype

theorem instantiates_iff_forall₂ : Instantiates cols vs ↔
    ∃ ordered, vs.Perm ordered ∧ List.Forall₂ MemberOf cols ordered := by
  constructor
  · rintro ⟨order,each,nested⟩
    refine ⟨_,order,List.forall₂_iff_zip.mpr ⟨each.length_eq,fun hmem => ?_⟩⟩
    obtain ⟨hname,htype⟩ := (List.forall₂_iff_zip.mp each).2 hmem
    exact ⟨hname,htype,nested _ hmem⟩
  · rintro ⟨ordered,order,hall⟩
    refine .intro order (hall.imp fun _ _ h => ⟨h.name,h.dataType⟩) fun e he => ?_
    exact ((List.forall₂_iff_zip.mp hall).2 he).nested

theorem instantiates_iff (hnames : (cols.map PropertySchema.name).Nodup) :
    Instantiates cols vs ↔ vs.length = cols.length ∧ ∀ col ∈ cols, ∃ v ∈ vs, MemberOf col v := by
  rw [instantiates_iff_forall₂]
  constructor
  · rintro ⟨ordered,order,hall⟩
    refine ⟨order.length_eq.trans hall.length_eq.symm,fun col hcol => ?_⟩
    obtain ⟨v,hv,hmember⟩ := exists_of_forall₂ hall col hcol
    exact ⟨v,order.mem_iff.mpr hv,hmember⟩
  · rintro ⟨hlen,hall⟩
    exact exists_perm_forall₂ (fun _ _ h => h.name) hnames hlen hall

theorem Instantiates.entry (h : Instantiates cols vs) : ∀ v ∈ vs, ∃ col ∈ cols, MemberOf col v := by
  obtain ⟨ordered,order,hall⟩ := instantiates_iff_forall₂.mp h
  exact fun v hv => exists_of_forall₂ hall.flip v (order.mem_iff.mp hv)

/-! ## Acceptance -/

/-- The names of the values are those of the entries. -/
theorem Instantiates.names (h : Instantiates cols vs) :
    (vs.map PropertyValue.name).Perm (cols.map PropertySchema.name) := by
  cases h with
  | @intro _ _ ordered order each nested =>
    have heq : List.Forall₂ (· = ·) (cols.map PropertySchema.name)
        (ordered.map PropertyValue.name) := by
      rw [List.forall₂_map_left_iff,List.forall₂_map_right_iff]
      exact each.imp fun _ _ h => h.1.symm
    rw [List.forall₂_eq_eq_eq] at heq
    rw [heq]
    exact order.map _

/-- A struct is accepted exactly for the values of its schema. -/
theorem validateStructValues_iff (hd : DistinctNames cols) :
    validateStructValues vs cols = .ok () ↔ Instantiates cols vs := by
  induction hd generalizing vs with
  | @intro cols names nested ih =>
    rw [validateStructValues_eq_ok,instantiates_iff names]
    constructor
    · rintro ⟨hlen,hfound⟩
      refine ⟨hlen,fun col hcol => ?_⟩
      obtain ⟨v,hv,htype,hstruct⟩ := hfound col hcol
      obtain ⟨hmem,hname⟩ := find_some hv
      exact ⟨v,hmem,hname,htype,fun h => (ih col hcol h).mp (hstruct h)⟩
    · rintro ⟨hlen,hall⟩
      have hvs : Distinct PropertyValue.name vs :=
        ((instantiates_iff names).mpr ⟨hlen,hall⟩).names.nodup_iff.mpr names
      refine ⟨hlen,fun col hcol => ?_⟩
      obtain ⟨v,hmem,hv⟩ := hall col hcol
      exact ⟨v,(find_eq_some_iff hvs).mpr ⟨hmem,hv.name⟩,hv.dataType,fun h =>
        (ih col hcol h).mpr (hv.nested h)⟩

/-! ## Order -/

/-- The values in another order, at any level. -/
inductive Reordered : List PropertyValue → List PropertyValue → Prop
  | perm {vs vs' : List PropertyValue} (h : vs.Perm vs') : Reordered vs vs'
  | inside (before after : List PropertyValue) {v : PropertyValue}
      {structValues : List PropertyValue}
      (h : Reordered v.structValues structValues) :
      Reordered (before ++ v :: after) (before ++ { v with structValues } :: after)
  | trans {vs vs' vs'' : List PropertyValue} (h : Reordered vs vs') (h' : Reordered vs' vs'') :
      Reordered vs vs''

/-- The entries in another order, at any level. -/
inductive ReorderedSchema : List PropertySchema → List PropertySchema → Prop
  | perm {cols cols' : List PropertySchema} (h : cols.Perm cols') : ReorderedSchema cols cols'
  | inside (before after : List PropertySchema) {col : PropertySchema}
      {structProperties : List PropertySchema}
      (h : ReorderedSchema col.structProperties structProperties) :
      ReorderedSchema (before ++ col :: after) (before ++ { col with structProperties } :: after)
  | trans {cols cols' cols'' : List PropertySchema} (h : ReorderedSchema cols cols')
      (h' : ReorderedSchema cols' cols'') : ReorderedSchema cols cols''

/-- A value of an instance is replaced by one that is of every entry it is of. -/
theorem Instantiates.replace {before after : List PropertyValue}
    (h : Instantiates cols (before ++ v :: after)) (hd : DistinctNames cols)
    (hv : ∀ col ∈ cols, MemberOf col v → MemberOf col v') :
    Instantiates cols (before ++ v' :: after) := by
  obtain ⟨hlen,hall⟩ := (instantiates_iff hd.names).mp h
  refine (instantiates_iff hd.names).mpr ⟨by simpa using hlen,fun col hcol => ?_⟩
  obtain ⟨w,hw,hmember⟩ := hall col hcol
  rw [List.perm_middle.mem_iff,List.mem_cons] at hw
  rcases hw with rfl | hw
  · exact ⟨v',by simp,hv col hcol hmember⟩
  · exact ⟨w,List.perm_middle.mem_iff.mpr (List.mem_cons_of_mem _ hw),hmember⟩

theorem Reordered.instantiates_iff (h : Reordered vs vs') (hd : DistinctNames cols) :
    Instantiates cols vs' ↔ Instantiates cols vs := by
  induction h generalizing cols with
  | perm h =>
    rw [instantiates_iff_forall₂,instantiates_iff_forall₂]
    exact exists_congr fun _ => and_congr_left fun _ => ⟨h.trans,h.symm.trans⟩
  | inside before after _ ih =>
    constructor
    all_goals
      intro h
      refine h.replace hd fun col hcol hv => ⟨hv.name,hv.dataType,fun htype => ?_⟩
    · exact (ih (hd.nested hcol htype)).mp (hv.nested htype)
    · exact (ih (hd.nested hcol htype)).mpr (hv.nested htype)
  | trans _ _ ih ih' => exact (ih' hd).trans (ih hd)

theorem ReorderedSchema.distinctNames (h : ReorderedSchema cols cols') (hd : DistinctNames cols) :
    DistinctNames cols' := by
  induction h with
  | perm h =>
    exact .intro ((h.map _).nodup_iff.mp hd.names) fun col hcol => hd.nested (h.mem_iff.mpr hcol)
  | @inside before after col ss _ ih =>
    refine .intro ?_ fun col' hcol' htype => ?_
    · have hnames := hd.names
      simp only [List.map_append,List.map_cons] at hnames ⊢
      exact hnames
    · rw [List.perm_middle.mem_iff,List.mem_cons] at hcol'
      rcases hcol' with rfl | hcol'
      · exact ih (hd.nested (by simp) htype)
      · exact hd.nested (List.perm_middle.mem_iff.mpr (List.mem_cons_of_mem _ hcol')) htype
  | trans _ _ ih ih' => exact ih' (ih hd)

/-- An entry is replaced by one that has the values of the old one. -/
theorem Instantiates.replaceEntry {before after : List PropertySchema}
    (h : Instantiates (before ++ col :: after) vs) (hd : DistinctNames (before ++ col :: after))
    (hd' : DistinctNames (before ++ col' :: after))
    (hcol : ∀ v, MemberOf col v → MemberOf col' v) :
    Instantiates (before ++ col' :: after) vs := by
  obtain ⟨hlen,hall⟩ := (instantiates_iff hd.names).mp h
  refine (instantiates_iff hd'.names).mpr ⟨by simpa using hlen,fun c hc => ?_⟩
  rw [List.perm_middle.mem_iff,List.mem_cons] at hc
  rcases hc with rfl | hc
  · obtain ⟨v,hv,hmember⟩ := hall col (by simp)
    exact ⟨v,hv,hcol v hmember⟩
  · exact hall c (List.perm_middle.mem_iff.mpr (List.mem_cons_of_mem _ hc))

theorem ReorderedSchema.instantiates_iff (h : ReorderedSchema cols cols')
    (hd : DistinctNames cols) : Instantiates cols' vs ↔ Instantiates cols vs := by
  induction h generalizing vs with
  | @perm cols cols' h =>
    have hd' := (ReorderedSchema.perm h).distinctNames hd
    rw [DgcRestApi.instantiates_iff hd.names,DgcRestApi.instantiates_iff hd'.names,h.length_eq]
    simp only [h.mem_iff]
  | @inside before after col ss h ih =>
    have hd' := (ReorderedSchema.inside before after h).distinctNames hd
    have hcol : col ∈ before ++ col :: after := by simp
    have hnested := fun htype vs => @ih vs (hd.nested hcol htype)
    constructor
    · exact fun h => h.replaceEntry hd' hd fun v hv =>
        ⟨hv.name,hv.dataType,fun htype => (hnested htype _).mp (hv.nested htype)⟩
    · exact fun h => h.replaceEntry hd hd' fun v hv =>
        ⟨hv.name,hv.dataType,fun htype => (hnested htype _).mpr (hv.nested htype)⟩
  | trans h _ ih ih' => exact (ih' (h.distinctNames hd)).trans (ih hd)

/-! ## Nothing else is accepted -/

/-- At every level no name is repeated, and every value is of an entry of the schema. -/
inductive Enclosed : List PropertySchema → List PropertyValue → Prop
  | intro {cols : List PropertySchema} {vs : List PropertyValue}
      (names : (vs.map PropertyValue.name).Nodup)
      (inside : ∀ v ∈ vs, ∃ col ∈ cols, v.name = col.name ∧ v.dataType = col.dataType)
      (nested : ∀ v ∈ vs, ∀ col ∈ cols, v.name = col.name → col.dataType = .STRUCT →
        Enclosed col.structProperties v.structValues) : Enclosed cols vs

theorem Instantiates.enclosed (hd : DistinctNames cols) (h : Instantiates cols vs) :
    Enclosed cols vs := by
  induction hd generalizing vs with
  | @intro cols names _ ih =>
    refine .intro (h.names.nodup_iff.mpr names) (fun v hv => ?_) fun v hv col hcol hname htype => ?_
    · obtain ⟨col,hcol,hmember⟩ := h.entry v hv
      exact ⟨col,hcol,hmember.name,hmember.dataType⟩
    · obtain ⟨col',hcol',hmember⟩ := h.entry v hv
      obtain rfl : col' = col :=
        List.inj_on_of_nodup_map names hcol' hcol (hmember.name.symm.trans hname)
      exact ih col' hcol htype (hmember.nested htype)

/-- Struct validation accepts exactly the values of the schema, in any order. -/
theorem struct_accepted_iff (hd : DistinctNames cols) (vs : List PropertyValue) :
    (validateStructValues vs cols = .ok () ↔ Instantiates cols vs) ∧
    (∀ vs', Reordered vs vs' →
      (validateStructValues vs' cols = .ok () ↔ validateStructValues vs cols = .ok ())) ∧
    (∀ cols', ReorderedSchema cols cols' →
      (validateStructValues vs cols' = .ok () ↔ validateStructValues vs cols = .ok ())) ∧
    (validateStructValues vs cols = .ok () → Enclosed cols vs) := by
  refine ⟨validateStructValues_iff hd,fun vs' h => ?_,fun cols' h => ?_,fun h => ?_⟩
  · rw [validateStructValues_iff hd,validateStructValues_iff hd,h.instantiates_iff hd]
  · rw [validateStructValues_iff (h.distinctNames hd),validateStructValues_iff hd,
      h.instantiates_iff hd]
  · exact ((validateStructValues_iff hd).mp h).enclosed hd

namespace Sample

def inner : List PropertySchema :=
  [{ name := "b", dataType := .STRING },{ name := "c", dataType := .BOOLEAN }]

/-- A struct of a number and of a struct of a string and a flag. -/
def nested : List PropertySchema :=
  [{ name := "a", dataType := .NUMBER },
   { name := "s", dataType := .STRUCT, structProperties := inner }]

def nestedValues (members : List PropertyValue) : List PropertyValue :=
  [{ name := "s", dataType := .STRUCT, structValues := members },
   { name := "a", dataType := .NUMBER, numberValue := 7 }]

def members : List PropertyValue :=
  [{ name := "b", dataType := .STRING, stringValue := "x" },
   { name := "c", dataType := .BOOLEAN, booleanValue := true }]

/-- What holds of a level when it holds below, holds of the whole schema. -/
theorem of_levels {P : List PropertySchema → Prop}
    (h : ∀ cols, cols = nested ∨ cols = inner →
      (∀ col ∈ cols, col.dataType = .STRUCT → P col.structProperties) → P cols) : P nested := by
  refine h nested (Or.inl rfl) fun col hcol htype => ?_
  simp only [nested,List.mem_cons,List.not_mem_nil,or_false] at hcol
  rcases hcol with rfl | rfl
  · exact nomatch htype
  · refine h inner (Or.inr rfl) fun col hcol htype => ?_
    simp only [inner,List.mem_cons,List.not_mem_nil,or_false] at hcol
    rcases hcol with rfl | rfl <;> exact nomatch htype

theorem distinctNames_nested : DistinctNames nested := by
  refine of_levels fun cols hcols hbelow => .intro ?_ hbelow
  rcases hcols with rfl | rfl <;> decide

end Sample

theorem struct_accepted_nested :
    Instantiates Sample.nested (Sample.nestedValues Sample.members) ∧
    validateStructValues (Sample.nestedValues Sample.members.reverse) Sample.nested = .ok () ∧
    Enclosed Sample.nested (Sample.nestedValues Sample.members) := by
  obtain ⟨hiff,hvalues,_,henclosed⟩ := struct_accepted_iff Sample.distinctNames_nested
    (Sample.nestedValues Sample.members)
  have hok : validateStructValues (Sample.nestedValues Sample.members) Sample.nested = .ok () := by
    decide +kernel
  have hreordered : Reordered (Sample.nestedValues Sample.members)
      (Sample.nestedValues Sample.members.reverse) :=
    .inside [] _ (.perm Sample.members.reverse_perm.symm)
  exact ⟨hiff.mp hok,(hvalues _ hreordered).mpr hok,henclosed hok⟩

end DgcRestApi
