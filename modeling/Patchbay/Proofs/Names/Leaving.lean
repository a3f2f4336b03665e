import Patchbay.Proofs.Names.Board

/-!
# Leaving the registry

When units go, each link and each store loses them from its lists and nothing else, and goes itself if
nobody is left (`Names.Without`). What stays keeps its handles, its samples and the order of its members.
-/

namespace Patchbay

/-- A link without certain members. -/
def Link.without (gone : List UnitId) (l : Link) : Link :=
  { l with
    emitters := l.emitters.filter (· ∉ gone), collectors := l.collectors.filter (· ∉ gone) }

/-- A store without certain members. -/
def Store.without (gone : List UnitId) (s : Store) : Store :=
  { s with owners := s.owners.filter (· ∉ gone), accessors := s.accessors.filter (· ∉ gone) }

/-- That a registry is another without certain units, and without what nobody else used. -/
structure Names.Without (gone : List UnitId) (n n' : Names) : Prop where
  seated : ∀ s, n'.seated s = (n.seated s).filter (· ∉ gone)
  links : ∀ key, n'.links.lookup key =
    ((n.links.lookup key).map (Link.without gone)).filter (!·.isUnused)
  stores : ∀ key, n'.stores.lookup key =
    ((n.stores.lookup key).map (Store.without gone)).filter (!·.isUnused)
  slots : ∀ s, n'.seated s ≠ [] → n'.slot? s = n.slot? s
  externals : n'.externals = n.externals
  blockSize : n'.blockSize = n.blockSize

variable {gone gone' : List UnitId}

/-! ## Links and stores -/

theorem filter_not_mem_append (l : List UnitId) :
    (l.filter (· ∉ gone)).filter (· ∉ gone') = l.filter (· ∉ gone ++ gone') := by
  rw [List.filter_filter]
  refine List.filter_congr fun x _ => ?_
  simp [Bool.and_comm]

namespace Link

theorem without_without (l : Link) :
    (l.without gone).without gone' = l.without (gone ++ gone') := by
  simp only [without, filter_not_mem_append]

theorem without_eq_self {l : Link} (h : ∀ x ∈ gone, x ∉ l.emitters ∧ x ∉ l.collectors) :
    l.without gone = l := by
  have hemitters : l.emitters.filter (· ∉ gone) = l.emitters :=
    List.filter_eq_self.2 fun x hx => by simpa using fun hgone => (h x hgone).1 hx
  have hcollectors : l.collectors.filter (· ∉ gone) = l.collectors :=
    List.filter_eq_self.2 fun x hx => by simpa using fun hgone => (h x hgone).2 hx
  rw [without, hemitters, hcollectors]

/-- Nobody comes to use a link when members go. -/
theorem isUnused_without {l : Link} (h : l.isUnused = true) : (l.without gone).isUnused = true := by
  simp only [isUnused, Bool.and_eq_true, List.isEmpty_iff] at h
  simp [isUnused, without, h.1, h.2]

end Link

namespace Store

theorem without_without (s : Store) :
    (s.without gone).without gone' = s.without (gone ++ gone') := by
  simp only [without, filter_not_mem_append]

theorem without_eq_self {s : Store} (h : ∀ x ∈ gone, x ∉ s.owners ∧ x ∉ s.accessors) :
    s.without gone = s := by
  have howners : s.owners.filter (· ∉ gone) = s.owners :=
    List.filter_eq_self.2 fun x hx => by simpa using fun hgone => (h x hgone).1 hx
  have haccessors : s.accessors.filter (· ∉ gone) = s.accessors :=
    List.filter_eq_self.2 fun x hx => by simpa using fun hgone => (h x hgone).2 hx
  rw [without, howners, haccessors]

theorem isUnused_without {s : Store} (h : s.isUnused = true) : (s.without gone).isUnused = true := by
  simp only [isUnused, Bool.and_eq_true, List.isEmpty_iff] at h
  simp [isUnused, without, h.1, h.2]

end Store

/-- What goes in two rows goes in one. -/
theorem filter_map_filter {α : Type} {f g : α → α} {p : α → Bool}
    (h : ∀ a, p a = true → p (g a) = true) (o : Option α) :
    ((((o.map f).filter (!p ·)).map g).filter (!p ·)) =
      (o.map (g ∘ f)).filter (!p ·) := by
  cases o with
  | none => rfl
  | some a =>
    by_cases ha : p (f a) = true
    · simp [Option.filter_some, ha, h _ ha]
    · simp [Option.filter_some, ha]

namespace Names

variable {n n' n'' : Names}

/-! ## Going one after the other -/

theorem filter_without_link (hu : n.InUse) {key : LinkFamily × Symbol}
    (h : ∀ x ∈ gone, x ∉ n.seated (.emitter key.1 key.2) ∧ x ∉ n.seated (.collector key.1 key.2)) :
    ((n.links.lookup key).map (Link.without gone)).filter (!·.isUnused) = n.links.lookup key := by
  cases hl : n.links.lookup key with
  | none => rfl
  | some l =>
    have hself : l.without gone = l :=
      Link.without_eq_self fun x hx => by simpa [seated, linkOf, hl] using h x hx
    simp [hself, Option.filter_some, hu.links key l hl]

theorem filter_without_store (hu : n.InUse) {key : StoreKind × Symbol}
    (h : ∀ x ∈ gone, x ∉ n.seated (.owner key.1 key.2) ∧ x ∉ n.seated (.accessor key.1 key.2)) :
    ((n.stores.lookup key).map (Store.without gone)).filter (!·.isUnused) = n.stores.lookup key := by
  cases hs : n.stores.lookup key with
  | none => rfl
  | some s =>
    have hself : s.without gone = s :=
      Store.without_eq_self fun x hx => by simpa [seated, storeOf, hs] using h x hx
    simp [hself, Option.filter_some, hu.stores key s hs]

/-- Nothing is lost if nobody of those who go is listed. -/
theorem without_of_unlisted (hu : n.InUse) (h : ∀ x ∈ gone, ∀ s, x ∉ n.seated s) :
    n.Without gone n where
  seated s := (List.filter_eq_self.2 fun x hx => by
    simpa using fun hgone => h x hgone s hx).symm
  links _ := (filter_without_link hu fun x hx => ⟨h x hx _, h x hx _⟩).symm
  stores _ := (filter_without_store hu fun x hx => ⟨h x hx _, h x hx _⟩).symm
  slots _ _ := rfl
  externals := rfl
  blockSize := rfl

theorem Without.refl (hu : n.InUse) : n.Without [] n :=
  without_of_unlisted hu fun _ hx => by cases hx

theorem Without.trans (h : n.Without gone n') (h' : n'.Without gone' n'') :
    n.Without (gone ++ gone') n'' where
  seated s := by rw [h'.seated, h.seated, filter_not_mem_append]
  links key := by
    rw [h'.links, h.links, filter_map_filter (p := Link.isUnused) fun _ => Link.isUnused_without]
    exact congrArg (Option.filter _ <| Option.map · _) (funext Link.without_without)
  stores key := by
    rw [h'.stores, h.stores,
      filter_map_filter (p := Store.isUnused) fun _ => Store.isUnused_without]
    exact congrArg (Option.filter _ <| Option.map · _) (funext Store.without_without)
  slots s hs := by
    have hmid : n'.seated s ≠ [] := fun hnil => hs (by rw [h'.seated, hnil, List.filter_nil])
    rw [h'.slots s hs, h.slots s hmid]
  externals := h'.externals.trans h.externals
  blockSize := h'.blockSize.trans h.blockSize

/-- It does not matter in which order units go. -/
theorem Without.congr (h : n.Without gone n') (hgone : ∀ x, x ∈ gone' ↔ x ∈ gone) :
    n.Without gone' n' := by
  have hkeep : ∀ l : List UnitId, l.filter (· ∉ gone') = l.filter (· ∉ gone) := fun l => by
    simp only [hgone]
  have hlink : Link.without gone' = Link.without gone := by
    funext l
    rw [Link.without, Link.without, hkeep, hkeep]
  have hstore : Store.without gone' = Store.without gone := by
    funext s
    rw [Store.without, Store.without, hkeep, hkeep]
  exact ⟨fun s => (h.seated s).trans (hkeep _).symm, hlink ▸ h.links, hstore ▸ h.stores, h.slots,
    h.externals, h.blockSize⟩

/-- What is changed at the only seat of a unit is all that the unit leaves. -/
theorem lookup_leaveLink (hn : n.Sound) (hu : n.InUse) {x : UnitId} {family : LinkFamily} {name : Symbol}
    {f : Link → Link} (hf : ∀ l, n.links.lookup (family, name) = some l → f l = l.without [x])
    (hother : ∀ key, key ≠ (family, name) →
      x ∉ n.seated (.emitter key.1 key.2) ∧ x ∉ n.seated (.collector key.1 key.2))
    (key : LinkFamily × Symbol) : (n.leaveLink family name f).links.lookup key =
      ((n.links.lookup key).map (Link.without [x])).filter (!·.isUnused) := by
  rw [Names.leaveLink, (hn.links.leave (family, name) f Link.isUnused).2.1]
  split
  · next hkey =>
    subst hkey
    cases hl : n.links.lookup (family, name) with
    | none => rfl
    | some l => rw [Option.map_some, Option.map_some, hf l hl]
  · next hkey =>
    exact (filter_without_link hu fun y hy => List.mem_singleton.1 hy ▸ hother key hkey).symm

theorem lookup_leaveStore (hn : n.Sound) (hu : n.InUse) {x : UnitId} {kind : StoreKind} {name : Symbol}
    {f : Store → Store} (hf : ∀ s, n.stores.lookup (kind, name) = some s → f s = s.without [x])
    (hother : ∀ key, key ≠ (kind, name) →
      x ∉ n.seated (.owner key.1 key.2) ∧ x ∉ n.seated (.accessor key.1 key.2))
    (key : StoreKind × Symbol) : (n.leaveStore kind name f).stores.lookup key =
      ((n.stores.lookup key).map (Store.without [x])).filter (!·.isUnused) := by
  rw [Names.leaveStore, (hn.stores.leave (kind, name) f Store.isUnused).2.1]
  split
  · next hkey =>
    subst hkey
    cases hs : n.stores.lookup (kind, name) with
    | none => rfl
    | some s => rw [Option.map_some, Option.map_some, hf s hs]
  · next hkey =>
    exact (filter_without_store hu fun y hy => List.mem_singleton.1 hy ▸ hother key hkey).symm

theorem filter_ne_eq (l : List UnitId) (x : UnitId) : l.filter (· ≠ x) = l.filter (· ∉ [x]) := by
  simp only [List.mem_singleton, ne_eq]

theorem filter_of_not_mem {l : List UnitId} {x : UnitId} (h : x ∉ l) : l.filter (· ∉ [x]) = l :=
  List.filter_eq_self.2 fun _ hy => decide_eq_true fun hmem => h (List.mem_singleton.1 hmem ▸ hy)

/-- A unit that has one seat leaves the registry when it gives up its role. -/
theorem without_unregister (hn : n.Sound) (hu : n.InUse) {x : UnitId} {role : Registration}
    (hx : ∀ s, x ∈ n.seated s → s = role.seat) : n.Without [x] (n.unregister x role) := by
  obtain ⟨-, hseated, hslots⟩ := unregister_eq hn x role
  have hnot : ∀ {s}, s ≠ role.seat → x ∉ n.seated s := fun hs hmem => hs (hx _ hmem)
  have hlinks : (∀ family name, role.seat ≠ .emitter family name ∧ role.seat ≠ .collector family name) →
      ∀ key, n.links.lookup key =
        ((n.links.lookup key).map (Link.without [x])).filter (!·.isUnused) := fun h key =>
    (filter_without_link hu fun y hy => List.mem_singleton.1 hy ▸
      ⟨hnot (h key.1 key.2).1.symm, hnot (h key.1 key.2).2.symm⟩).symm
  have hstores : (∀ kind name, role.seat ≠ .owner kind name ∧ role.seat ≠ .accessor kind name) →
      ∀ key, n.stores.lookup key =
        ((n.stores.lookup key).map (Store.without [x])).filter (!·.isUnused) := fun h key =>
    (filter_without_store hu fun y hy => List.mem_singleton.1 hy ▸
      ⟨hnot (h key.1 key.2).1.symm, hnot (h key.1 key.2).2.symm⟩).symm
  have hseats : ∀ s, (n.unregister x role).seated s = (n.seated s).filter (· ∉ [x]) := by
    intro s
    rw [hseated]
    split
    · exact filter_ne_eq _ x
    · next hs =>
      exact (filter_of_not_mem (hnot hs)).symm
  cases role with
  | emitter family name =>
    refine ⟨hseats, lookup_leaveLink hn hu (fun l hl => ?_) fun key hkey => ?_,
      hstores fun _ _ => by simp [Registration.seat], hslots, rfl, rfl⟩
    · have hcollectors : x ∉ n.seated (.collector family name) := hnot (by simp [Registration.seat])
      simp only [seated, linkOf, hl, Option.getD_some] at hcollectors
      rw [Link.without, filter_ne_eq, filter_of_not_mem hcollectors]
    · exact ⟨hnot fun he => hkey (by cases he; rfl), hnot (by simp [Registration.seat])⟩
  | collector family name =>
    refine ⟨hseats, lookup_leaveLink hn hu (fun l hl => ?_) fun key hkey => ?_,
      hstores fun _ _ => by simp [Registration.seat], hslots, rfl, rfl⟩
    · have hemitters : x ∉ n.seated (.emitter family name) := hnot (by simp [Registration.seat])
      simp only [seated, linkOf, hl, Option.getD_some] at hemitters
      rw [Link.without, filter_ne_eq, filter_of_not_mem hemitters]
    · exact ⟨hnot (by simp [Registration.seat]), hnot fun he => hkey (by cases he; rfl)⟩
  | receiver name =>
    exact ⟨hseats, hlinks fun _ _ => by simp [Registration.seat],
      hstores fun _ _ => by simp [Registration.seat], hslots, rfl, rfl⟩
  | owner kind name length =>
    refine ⟨hseats, hlinks fun _ _ => by simp [Registration.seat],
      lookup_leaveStore hn hu (fun s hs => ?_) fun key hkey => ?_, hslots, rfl, rfl⟩
    · have haccessors : x ∉ n.seated (.accessor kind name) := hnot (by simp [Registration.seat])
      simp only [seated, storeOf, hs, Option.getD_some] at haccessors
      rw [Store.without, filter_ne_eq, filter_of_not_mem haccessors]
    · exact ⟨hnot fun he => hkey (by cases he; rfl), hnot (by simp [Registration.seat])⟩
  | accessor kind name =>
    refine ⟨hseats, hlinks fun _ _ => by simp [Registration.seat],
      lookup_leaveStore hn hu (fun s hs => ?_) fun key hkey => ?_, hslots, rfl, rfl⟩
    · have howners : x ∉ n.seated (.owner kind name) := hnot (by simp [Registration.seat])
      simp only [seated, storeOf, hs, Option.getD_some] at howners
      rw [Store.without, filter_ne_eq, filter_of_not_mem howners]
    · exact ⟨hnot (by simp [Registration.seat]), hnot fun he => hkey (by cases he; rfl)⟩

end Names
end Patchbay
