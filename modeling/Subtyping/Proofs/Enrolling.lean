import Subtyping.Proofs.Attaching

/-!
# What a file declares

All names of a file are declared before anything is attached. What is there then is a bare declaration
for each, with its own type and nothing else (`Manifest.Enrolled`), and it comes to that exactly if no
name occurs twice (`Manifest.declareAll_hinges`). A declaration is known by its place in the file
(`Manifest.numberIn`), so all that the file refers to can be listed (`Manifest.references`). Loading
succeeds exactly if the names are different, every reference stands for a type and all attachments
together are allowed (`Manifest.build_hinges`).
-/

namespace Subtyping

open Universe

namespace Manifest

variable {u v : Universe} {ds : List Decl} {tys : List Handle} {d : Decl} {ty : Handle}

/-! ## Declarations and their places -/

/-- What is declared first, before anything is attached. -/
def Decl.bare (d : Decl) : Declaration :=
  .bare d.kind d.name (d.params.map Param.name)

theorem Decl.bare_bare (d : Decl) : d.bare.Bare := by
  refine ⟨rfl, rfl, fun p hp => ?_⟩
  obtain ⟨n, -, rfl⟩ := List.mem_map.1 hp
  rfl

theorem Decl.stripped_bare (d : Decl) : d.bare.stripped = d.bare := by
  simp [bare, Declaration.stripped, Declaration.bare]

theorem Decl.arity_bare (d : Decl) : d.bare.arity = d.params.length := by
  simp [bare, Declaration.arity, Declaration.bare]

/-- The number of a declaration, by its place in a file. -/
def numberIn (ds : List Decl) (d : Decl) : DeclId :=
  ⟨ds.idxOf d + 1⟩

theorem numberIn_getElem (hnodup : ds.Nodup) {n : Nat} (hn : n < ds.length) :
    numberIn ds ds[n] = ⟨n + 1⟩ := by
  rw [numberIn, hnodup.idxOf_getElem]

theorem numberIn_injOn {d' : Decl} (hd : d ∈ ds) (h : numberIn ds d = numberIn ds d') : d = d' :=
  (List.idxOf_inj hd).1 (by simpa [numberIn] using h)

/-- All that a file refers to. -/
def references (ds : List Decl) : List Reference :=
  ds.flatMap fun d => d.references (numberIn ds d)

theorem Decl.decl_of_mem_references {decl : DeclId} {r : Reference} (h : r ∈ d.references decl) :
    r.decl = decl := by
  simp only [Decl.references, List.mem_append, List.mem_map, List.mem_flatMap] at h
  rcases h with ⟨_, -, rfl⟩ | ⟨_, -, rfl⟩ | ⟨_, -, _, -, rfl⟩ <;> rfl

theorem Decl.oneBase_references (d : Decl) (decl : DeclId) :
    Attachment.OneBase ((d.references decl).map (·.key)) := by
  have hrest : ∀ k ∈ ((d.interfaces.map (⟨decl, .interface, ·⟩) ++ d.params.zipIdx.flatMap fun p =>
      p.1.constraints.map (⟨decl, .bound p.2, ·⟩) : List Reference)).map (·.key), k.2 ≠ .base := by
    intro k hk
    obtain ⟨r, hr, rfl⟩ := List.mem_map.1 hk
    simp only [List.mem_append, List.mem_map, List.mem_flatMap] at hr
    rcases hr with ⟨_, -, rfl⟩ | ⟨_, -, _, -, rfl⟩ <;> exact Slot.noConfusion
  rw [Decl.references, List.map_append, Attachment.OneBase, List.pairwise_append]
  refine ⟨?_, List.pairwise_of_forall_mem_list fun k hk l _ hbase => absurd hbase (hrest k hk), ?_⟩
  · cases d.base <;> simp
  · intro k hk l hl hbase heq
    rw [heq] at hl
    exact hrest k hl hbase

/-- Every declaration gets one base at most. -/
theorem oneBase_references (hnodup : ds.Nodup) :
    Attachment.OneBase ((references ds).map (·.key)) := by
  rw [references, List.map_flatMap, Attachment.OneBase, List.pairwise_flatMap]
  refine ⟨fun d _ => d.oneBase_references _, hnodup.imp_of_mem fun {d d'} hd hd' hne k hk l hl _ => ?_⟩
  obtain ⟨r, hr, rfl⟩ := List.mem_map.1 hk
  obtain ⟨s, hs, rfl⟩ := List.mem_map.1 hl
  intro heq
  have hdecl : s.decl = r.decl := congrArg Prod.fst heq
  rw [Decl.decl_of_mem_references hr, Decl.decl_of_mem_references hs] at hdecl
  exact hne (numberIn_injOn hd hdecl.symm)

/-! ## Declaring all names -/

/-- A universe has the declarations of a list, bare and in this order, with the given own types, and no
other types than those are made of. -/
structure Enrolled (ds : List Decl) (tys : List Handle) (u : Universe) : Prop where
  nodup : (ds.map (·.name)).Nodup
  valid : u.Valid
  entries : u.catalog.entries.toList = ds.map Decl.bare
  named : u.catalog.Named
  ownTypes : u.ownTypes.toList = tys
  has_iff : ∀ t, u.Has t ↔ ∃ decl d, u.catalog.get? decl = some d ∧ t.Part (.own decl d.arity)
  closures : u.closures = ∅

theorem enrolled_nil : Enrolled [] [] {} := by
  refine ⟨List.nodup_nil, valid_empty, rfl, tabulated_empty.names, rfl, fun t => ?_, rfl⟩
  constructor
  · rintro ⟨ty, hty, -⟩
    simp [contains, shape?, TypeTable.shape?_empty] at hty
  · rintro ⟨decl, d, hd, -⟩
    cases (Catalog.get?_empty decl).symm.trans hd

namespace Enrolled

variable (h : Enrolled ds tys u)
include h

theorem nodup_decls : ds.Nodup :=
  h.nodup.of_map _

theorem get?_succ (n : Nat) : u.catalog.get? ⟨n + 1⟩ = ds[n]?.map Decl.bare := by
  rw [← List.getElem?_map, ← h.entries, Array.getElem?_toList]
  rfl

theorem get?_numberIn (hd : d ∈ ds) : u.catalog.get? (numberIn ds d) = some d.bare := by
  rw [numberIn, h.get?_succ, List.getElem?_idxOf hd]
  rfl

/-- Every declaration has its place in the list. -/
theorem exists_of_get? {decl : DeclId} {d' : Declaration} (hd : u.catalog.get? decl = some d') :
    ∃ d ∈ ds, decl = numberIn ds d ∧ d' = d.bare := by
  obtain ⟨num⟩ := decl
  cases num with
  | zero => cases hd
  | succ n =>
    rw [h.get?_succ] at hd
    obtain ⟨d, hn, rfl⟩ := Option.map_eq_some_iff.1 hd
    obtain ⟨hlt, rfl⟩ := List.getElem?_eq_some_iff.1 hn
    exact ⟨ds[n], List.getElem_mem hlt, (numberIn_getElem h.nodup_decls hlt).symm, rfl⟩

theorem ownType?_of_mem_zip (hmem : (d, ty) ∈ ds.zip tys) : u.ownType? (numberIn ds d) = some ty := by
  obtain ⟨n, hn, heq⟩ := List.getElem_of_mem hmem
  rw [List.getElem_zip] at heq
  obtain ⟨rfl, rfl⟩ := Prod.mk.inj heq
  rw [List.length_zip, lt_inf_iff] at hn
  rw [numberIn_getElem h.nodup_decls hn.1]
  show u.ownTypes[n]? = _
  rw [← Array.getElem?_toList, h.ownTypes, List.getElem?_eq_getElem hn.2]

/-- Nothing is attached yet. -/
theorem bare_of_get? {decl : DeclId} {d' : Declaration} (hd : u.catalog.get? decl = some d') :
    d'.Bare := by
  obtain ⟨d, -, -, rfl⟩ := h.exists_of_get? hd
  exact d.bare_bare

theorem bounds_eq_nil (decl : DeclId) (index : Nat) : u.signature.bounds decl index = [] := by
  simp only [signature, parameter?]
  cases hd : u.catalog.get? decl with
  | none => rfl
  | some d' =>
    cases hp : d'.parameters[index]? with
    | none => simp [hp]
    | some p => simp [hp, (h.bare_of_get? hd).bounds p (List.mem_of_getElem? hp)]

theorem rootless : u.signature.Rootless := by
  refine ⟨fun decl => ?_, fun decl => ?_⟩
  all_goals
    simp only [signature]
    cases hd : u.catalog.get? decl with
    | none => rfl
    | some d' => simp [(h.bare_of_get? hd).base, (h.bare_of_get? hd).interfaces]

theorem mem_names_iff (name : String) :
    name ∈ ds.map (·.name) ↔ (u.catalog.named? name).isSome := by
  rw [Option.isSome_iff_exists, List.mem_map]
  constructor
  · rintro ⟨d, hd, rfl⟩
    exact ⟨numberIn ds d, (h.named _ _).2 ⟨d.bare, h.get?_numberIn hd, rfl⟩⟩
  · rintro ⟨decl, hdecl⟩
    obtain ⟨d', hd', rfl⟩ := (h.named _ _).1 hdecl
    obtain ⟨d, hd, -, rfl⟩ := h.exists_of_get? hd'
    exact ⟨d, hd, rfl⟩

/-- One more declaration is introduced. -/
theorem introduce (hfree : d.name ∉ ds.map (·.name)) (hv : u.Introduces d.bare ty v) :
    Enrolled (ds ++ [d]) (tys ++ [ty]) v := by
  have hreads : ∀ {ty t}, u.Reads ty t → v.Reads ty t := fun {ty t} hr =>
    ⟨hv.table.isSome hr.1,
      (hv.table.typeAt_eq h.valid.consistent.table hv.valid.consistent.table hr.1).trans hr.2⟩
  refine ⟨?_, hv.valid, ?_, ?_, ?_, fun t => ?_, hv.gains.closures.trans h.closures⟩
  · rw [List.map_append, List.nodup_append]
    refine ⟨h.nodup, List.nodup_singleton _, fun name hname other hother heq => hfree ?_⟩
    rw [List.mem_singleton.1 hother] at heq
    exact (show name = d.name from heq) ▸ hname
  · rw [hv.catalog, List.map_append, ← h.entries]
    exact Array.toList_push
  · rw [hv.catalog]
    refine h.named.add ?_
    rwa [h.mem_names_iff, Option.not_isSome_iff_eq_none] at hfree
  · rw [hv.ownTypes, Array.toList_push, h.ownTypes]
  · simp only [hv.catalog, Catalog.get?_add]
    constructor
    · intro ht
      rcases hv.gains.parts t ht with ht | ht
      · obtain ⟨decl, d', hd', hpart⟩ := (h.has_iff t).1 ht
        refine ⟨decl, d', ?_, hpart⟩
        rw [if_neg, hd']
        rintro rfl
        cases (u.catalog.get?_add_self d.bare).symm.trans hd'
      · exact ⟨_, d.bare, if_pos rfl, ht⟩
    · rintro ⟨decl, d', hd', hpart⟩
      split_ifs at hd' with hnew
      · obtain rfl := Option.some.inj hd'
        exact hv.valid.consistent.has_of_part (hnew ▸ hpart) ⟨ty, hv.gains.reads⟩
      · exact ((h.has_iff t).2 ⟨decl, d', hd', hpart⟩).imp fun _ => hreads

end Enrolled

theorem declare_hinges (h : Enrolled ds tys u) (d : Decl) :
    Hinges u d.declare (d.name ∉ ds.map (·.name)) fun ty v => Enrolled (ds ++ [d]) (tys ++ [ty]) v := by
  have hdeclare : Hinges u (Declaring.declare d.bare) (d.name ∉ ds.map (·.name)) fun ty v =>
      Enrolled (ds ++ [d]) (tys ++ [ty]) v := by
    intro j
    have hfree : d.name ∉ ds.map (·.name) ↔ u.checkName d.name = .ok () := by
      rw [h.mem_names_iff, Option.not_isSome_iff_eq_none, checkName_eq_ok_iff]
    cases hname : u.checkName d.name with
    | ok _ =>
      obtain ⟨ty, hty, hv⟩ := h.valid.run_declare d.bare j hname
      rw [d.stripped_bare] at hv
      exact Or.inl ⟨ty, hty, h.introduce (hfree.2 hname) hv⟩
    | error e =>
      rw [Declaring.run_declare, d.stripped_bare, show d.bare.name = d.name from rfl, hname]
      refine Or.inr ⟨⟨e, rfl⟩, fun hnew => ?_⟩
      cases hname.symm.trans (hfree.1 hnew)
  exact hdeclare.ofDeclaring.within _

/-- All names are declared exactly if they are different. -/
theorem declareAll_hinges (h : Enrolled ds tys u) (ds' : List Decl) :
    Hinges u (ds'.mapM Decl.declare) ((ds ++ ds').map (·.name)).Nodup fun tys' v =>
      Enrolled (ds ++ ds') (tys ++ tys') v := by
  induction ds' generalizing ds tys u with
  | nil =>
    rw [List.mapM_nil]
    exact .pure (by rwa [List.append_nil, List.append_nil])
  | cons d ds' ih =>
    rw [List.mapM_cons]
    refine Hinges.bind (declare_hinges h d) (fun hnodup hmem => ?_) fun ty v hv => ?_
    · rw [List.map_append, List.nodup_append] at hnodup
      exact hnodup.2.2 _ hmem d.name (by simp) rfl
    · have hrest := ih hv
      rw [List.append_assoc, List.singleton_append] at hrest
      refine Hinges.bind hrest id fun tys' w hw => .pure ?_
      rwa [List.append_assoc, List.singleton_append] at hw

/-! ## Loading -/

/-- The references of a file that stand for types can all be attached. -/
def Attachable (ds : List Decl) : Prop :=
  ∀ u tys, Enrolled ds tys u → ∃ as, (references ds).mapM u.attachment? = some as ∧
    u.signature.Allows as

/-- A universe has all declarations of a list, with all that they refer to attached. -/
def Loaded (ds : List Decl) (v : Universe) : Prop :=
  ∃ u tys as, Enrolled ds tys u ∧ (references ds).mapM u.attachment? = some as ∧ u.Presents as v

/-- A file is loaded exactly if its names are different and its references can be attached. -/
theorem build_hinges (m : Manifest) :
    Hinges {} m.build ((m.decls.map (·.name)).Nodup ∧ Attachable m.decls) fun _ v =>
      Loaded m.decls v := by
  refine Hinges.bind (declareAll_hinges enrolled_nil m.decls) And.left fun tys u hu => ?_
  rw [List.nil_append, List.nil_append] at hu
  have henacts : u.Enacts ((m.decls.zip tys).forM fun p => p.1.attach p.2)
      ((m.decls.zip tys).flatMap fun p => p.1.references (numberIn m.decls p.1)) := by
    refine .forM fun p hp => ?_
    have hmem : p.1 ∈ m.decls := (List.of_mem_zip hp).1
    exact p.1.attach_enacts hu.rootless (hu.ownType?_of_mem_zip hp) hu.valid (hu.get?_numberIn hmem)
      p.1.arity_bare
  have hrefs : ((m.decls.zip tys).flatMap fun p => p.1.references (numberIn m.decls p.1)) =
      references m.decls := by
    have hlen : m.decls.length ≤ tys.length := by
      rw [← hu.ownTypes, Array.length_toList, hu.valid.aligned, Catalog.size, ← Array.length_toList,
        hu.entries, List.length_map]
    calc ((m.decls.zip tys).flatMap fun p => p.1.references (numberIn m.decls p.1))
        = ((m.decls.zip tys).map Prod.fst).flatMap fun d => d.references (numberIn m.decls d) :=
          by rw [List.flatMap_map]
      _ = references m.decls := by rw [List.map_fst_zip hlen, references]
  rw [hrefs] at henacts
  have hattach := henacts [] u (hu.valid.presents_nil hu.closures) (oneBase_references hu.nodup_decls)
  simp only [List.nil_append] at hattach
  refine Hinges.bind hattach (fun hm => hm.2 u tys hu) fun _ v hv => ?_
  obtain ⟨as, has, hv⟩ := hv
  exact fun j => Or.inl ⟨(), rfl, u, tys, as, hu, has, hv⟩

end Manifest

end Subtyping
