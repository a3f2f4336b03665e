import Patchbay.Proofs.Names.Seats

/-!
# Who is listed at all

The **roster** is everything that the registry lists, slot by slot and with repetitions, whatever the
keys of its directories say. In a sound registry the keys lead to all of it (`mem_roster`), so nobody
is listed twice if nobody has two seats or sits twice at one (`nodup_roster`).
-/

namespace Patchbay

/-! ## Values of a directory -/

namespace Directory

variable {κ α β : Type}

/-- What the values of a directory list, slot by slot. -/
def roll (d : Directory κ α) (f : α → List β) : List β :=
  (List.range d.slots.size).flatMap fun s => ((d.get? s).map f).getD []

theorem mem_slot {d : Directory κ α} {f : α → List β} {s : Nat} {b : β}
    (h : b ∈ ((d.get? s).map f).getD []) : ∃ v, d.get? s = some v ∧ b ∈ f v := by
  cases hv : d.get? s with
  | none => simp [hv] at h
  | some v =>
    rw [hv] at h
    exact ⟨v, rfl, h⟩

namespace Sound

variable [DecidableEq κ] {d : Directory κ α} (hd : d.Sound) {f : α → List β}
include hd

/-- Each value is that of a key. -/
theorem exists_lookup {s : Nat} {v : α} (h : d.get? s = some v) :
    ∃ key, d.find? key = some s ∧ d.lookup key = some v := by
  obtain ⟨key, hkey⟩ := hd.exists_key (s := s) (by rw [h]; rfl)
  exact ⟨key, hkey, (hd.lookup_eq hkey).trans h⟩

theorem mem_roll {b : β} : b ∈ d.roll f ↔ ∃ key v, d.lookup key = some v ∧ b ∈ f v := by
  rw [roll, List.mem_flatMap]
  constructor
  · rintro ⟨s, -, hb⟩
    obtain ⟨v, hv, hb⟩ := mem_slot hb
    obtain ⟨key, -, hkey⟩ := hd.exists_lookup hv
    exact ⟨key, v, hkey, hb⟩
  · rintro ⟨key, v, hkey, hb⟩
    obtain ⟨s, hs, hv⟩ := Option.bind_eq_some_iff.1 hkey
    refine ⟨s, List.mem_range.2 (lt_of_get?_isSome (by rw [hv]; rfl)), ?_⟩
    rw [hv]
    exact hb

/-- What no value lists twice and no two values share is listed once. -/
theorem nodup_roll (hv : ∀ key v, d.lookup key = some v → (f v).Nodup)
    (hkey : ∀ key key' v v' b, d.lookup key = some v → d.lookup key' = some v' → b ∈ f v →
      b ∈ f v' → key = key') : (d.roll f).Nodup := by
  rw [roll, List.nodup_flatMap]
  refine ⟨fun s _ => ?_, List.pairwise_lt_range.imp fun {s t} hst b hs ht => ?_⟩
  · cases hs : d.get? s with
    | none => exact List.nodup_nil
    | some v =>
      obtain ⟨key, -, hkey⟩ := hd.exists_lookup hs
      exact hv key v hkey
  · obtain ⟨v, hv, hb⟩ := mem_slot hs
    obtain ⟨v', hv', hb'⟩ := mem_slot ht
    obtain ⟨key, hfind, hlook⟩ := hd.exists_lookup hv
    obtain ⟨key', hfind', hlook'⟩ := hd.exists_lookup hv'
    have := hkey key key' v v' b hlook hlook' hb hb'
    subst this
    rw [hfind] at hfind'
    exact absurd (Option.some.inj hfind') (Nat.ne_of_lt hst)

end Sound
end Directory

/-! ## The registry -/

/-- All who are listed at a link. -/
def Link.members (l : Link) : List UnitId := l.emitters ++ l.collectors

/-- All who are listed at a store. -/
def Store.members (s : Store) : List UnitId := s.owners ++ s.accessors

namespace Names

/-- All that is listed in the registry, as often as it is. -/
def roster (n : Names) : List UnitId :=
  n.links.roll Link.members ++ n.stores.roll Store.members ++ n.receiverLists.flatMap (·.2)

/-- That nobody sits twice at a seat. -/
def Once (n : Names) : Prop := ∀ s, (n.seated s).Nodup

theorem SameSeats.once {n n' : Names} (h : n.SameSeats n') (hn : n.Once) : n'.Once := fun s => by
  rw [h.seated]
  exact hn s

theorem once_fresh (blockSize : Nat) : Once { blockSize } := fun s => by
  cases s <;> exact List.nodup_nil

theorem once_register {n n' : Names} (hn : n.Sound) (ho : n.Once) {unit : UnitId}
    {role : Registration} {h : Option Handle} (heq : n.register unit role = .ok (h, n'))
    (hnew : ∀ s, unit ∉ n.seated s) : n'.Once := by
  obtain ⟨-, -, hseated, -⟩ := register_eq hn heq
  intro s
  rw [hseated]
  split
  · exact List.nodup_append.2 ⟨ho s, List.nodup_singleton _, fun a ha b hb he =>
      hnew s (List.mem_singleton.1 hb ▸ he ▸ ha)⟩
  · rw [List.append_nil]
    exact ho s

theorem once_unregister {n : Names} (hn : n.Sound) (ho : n.Once) (unit : UnitId)
    (role : Registration) : (n.unregister unit role).Once := by
  obtain ⟨-, hseated, -⟩ := unregister_eq hn unit role
  intro s
  rw [hseated]
  split
  · exact (ho s).filter _
  · exact ho s

/-! ## Seats and lists -/

variable {n : Names}

theorem seated_of_link {family : LinkFamily} {name : Symbol} {l : Link}
    (h : n.links.lookup (family, name) = some l) :
    n.seated (.emitter family name) = l.emitters ∧ n.seated (.collector family name) = l.collectors := by
  simp [seated, linkOf, h]

theorem seated_of_store {kind : StoreKind} {name : Symbol} {s : Store}
    (h : n.stores.lookup (kind, name) = some s) :
    n.seated (.owner kind name) = s.owners ∧ n.seated (.accessor kind name) = s.accessors := by
  simp [seated, storeOf, h]

theorem seated_of_receivers (hn : n.Sound) {p : Symbol × List UnitId} (hp : p ∈ n.receiverLists) :
    n.seated (.receiver p.1) = p.2 := by
  cases hf : n.receiverLists.find? (·.1 = p.1) with
  | none => exact absurd (List.find?_eq_none.1 hf p hp) (by simp)
  | some q =>
    have hq : q.1 = p.1 := by simpa using List.find?_some hf
    have hqp := List.inj_on_of_nodup_map hn.receivers (List.mem_of_find?_eq_some hf) hp hq
    simp [seated, hf, hqp]

/-- Those at a link sit at one of its two seats. -/
theorem exists_seat_of_link {family : LinkFamily} {name : Symbol} {l : Link} {x : UnitId}
    (h : n.links.lookup (family, name) = some l) (hx : x ∈ l.members) :
    x ∈ n.seated (.emitter family name) ∨ x ∈ n.seated (.collector family name) := by
  obtain ⟨he, hc⟩ := seated_of_link h
  rw [he, hc]
  exact List.mem_append.1 hx

/-- Those at a store sit at one of its two seats. -/
theorem exists_seat_of_store {kind : StoreKind} {name : Symbol} {s : Store} {x : UnitId}
    (h : n.stores.lookup (kind, name) = some s) (hx : x ∈ s.members) :
    x ∈ n.seated (.owner kind name) ∨ x ∈ n.seated (.accessor kind name) := by
  obtain ⟨ho, ha⟩ := seated_of_store h
  rw [ho, ha]
  exact List.mem_append.1 hx

theorem lookup_of_mem_linkOf {family : LinkFamily} {name : Symbol}
    (h : (n.linkOf family name).emitters ≠ [] ∨ (n.linkOf family name).collectors ≠ []) :
    n.links.lookup (family, name) = some (n.linkOf family name) := by
  cases hl : n.links.lookup (family, name) with
  | none => simp [linkOf, hl, freshLink] at h
  | some l => simp [linkOf, hl]

theorem lookup_of_mem_storeOf {kind : StoreKind} {name : Symbol}
    (h : (n.storeOf kind name).owners ≠ [] ∨ (n.storeOf kind name).accessors ≠ []) :
    n.stores.lookup (kind, name) = some (n.storeOf kind name) := by
  cases hs : n.stores.lookup (kind, name) with
  | none => simp [storeOf, hs] at h
  | some s => simp [storeOf, hs]

/-- The keys of a sound registry lead to all that it lists. -/
theorem mem_roster (hn : n.Sound) {x : UnitId} : x ∈ n.roster ↔ ∃ s, x ∈ n.seated s := by
  rw [roster, List.mem_append, List.mem_append, hn.links.mem_roll, hn.stores.mem_roll,
    List.mem_flatMap]
  constructor
  · rintro ((⟨⟨family, name⟩, l, hl, hx⟩ | ⟨⟨kind, name⟩, s, hs, hx⟩) | ⟨p, hp, hx⟩)
    · exact (exists_seat_of_link hl hx).elim (⟨_, ·⟩) (⟨_, ·⟩)
    · exact (exists_seat_of_store hs hx).elim (⟨_, ·⟩) (⟨_, ·⟩)
    · exact ⟨.receiver p.1, (seated_of_receivers hn hp).symm ▸ hx⟩
  · rintro ⟨s, hx⟩
    cases s with
    | emitter family name =>
      exact .inl (.inl ⟨_, _, lookup_of_mem_linkOf (.inl (List.ne_nil_of_mem hx)),
        List.mem_append_left _ hx⟩)
    | collector family name =>
      exact .inl (.inl ⟨_, _, lookup_of_mem_linkOf (.inr (List.ne_nil_of_mem hx)),
        List.mem_append_right _ hx⟩)
    | owner kind name =>
      exact .inl (.inr ⟨_, _, lookup_of_mem_storeOf (.inl (List.ne_nil_of_mem hx)),
        List.mem_append_left _ hx⟩)
    | accessor kind name =>
      exact .inl (.inr ⟨_, _, lookup_of_mem_storeOf (.inr (List.ne_nil_of_mem hx)),
        List.mem_append_right _ hx⟩)
    | receiver name =>
      rw [seated] at hx
      cases hf : n.receiverLists.find? (·.1 = name) with
      | none => simp [hf] at hx
      | some p =>
        rw [hf] at hx
        exact .inr ⟨p, List.mem_of_find?_eq_some hf, hx⟩

/-- Nobody is listed twice, if nobody has two seats. -/
theorem nodup_roster (hn : n.Sound) (ho : n.Once)
    (hseat : ∀ x s s', x ∈ n.seated s → x ∈ n.seated s' → s = s') : n.roster.Nodup := by
  rw [roster, List.nodup_append, List.nodup_append]
  refine ⟨⟨hn.links.nodup_roll ?_ ?_, hn.stores.nodup_roll ?_ ?_, ?_⟩, ?_, ?_⟩
  · rintro ⟨family, name⟩ l hl
    obtain ⟨he, hc⟩ := seated_of_link hl
    refine List.nodup_append.2 ⟨he ▸ ho _, hc ▸ ho _, fun x hx y hy hxy => ?_⟩
    subst hxy
    cases hseat x _ _ (he ▸ hx) (hc ▸ hy)
  · rintro ⟨family, name⟩ ⟨family', name'⟩ l l' x hl hl' hx hx'
    rcases exists_seat_of_link hl hx with h | h <;> rcases exists_seat_of_link hl' hx' with h' | h' <;>
      cases hseat x _ _ h h' <;> rfl
  · rintro ⟨kind, name⟩ s hs
    obtain ⟨hown, ha⟩ := seated_of_store hs
    refine List.nodup_append.2 ⟨hown ▸ ho _, ha ▸ ho _, fun x hx y hy hxy => ?_⟩
    subst hxy
    cases hseat x _ _ (hown ▸ hx) (ha ▸ hy)
  · rintro ⟨kind, name⟩ ⟨kind', name'⟩ s s' x hs hs' hx hx'
    rcases exists_seat_of_store hs hx with h | h <;>
      rcases exists_seat_of_store hs' hx' with h' | h' <;> cases hseat x _ _ h h' <;> rfl
  · rintro x hx _ hy rfl
    obtain ⟨⟨family, name⟩, l, hl, hx⟩ := hn.links.mem_roll.1 hx
    obtain ⟨⟨kind, name'⟩, s, hs, hy⟩ := hn.stores.mem_roll.1 hy
    rcases exists_seat_of_link hl hx with h | h <;> rcases exists_seat_of_store hs hy with h' | h' <;>
      cases hseat x _ _ h h'
  · rw [List.nodup_flatMap]
    refine ⟨fun p hp => seated_of_receivers hn hp ▸ ho _, ?_⟩
    refine (List.pairwise_map.1 hn.receivers).imp_of_mem fun {p q} hp hq hne x hx hy => ?_
    have hp : x ∈ n.seated (.receiver p.1) := (seated_of_receivers hn hp).symm ▸ hx
    have hq : x ∈ n.seated (.receiver q.1) := (seated_of_receivers hn hq).symm ▸ hy
    exact hne (Seat.receiver.inj (hseat x _ _ hp hq))
  · rintro x hx _ hy rfl
    obtain ⟨p, hp, hy⟩ := List.mem_flatMap.1 hy
    have hreceiver : x ∈ n.seated (.receiver p.1) := (seated_of_receivers hn hp).symm ▸ hy
    rcases List.mem_append.1 hx with hx | hx
    · obtain ⟨⟨family, name⟩, l, hl, hx⟩ := hn.links.mem_roll.1 hx
      rcases exists_seat_of_link hl hx with h | h <;> cases hseat x _ _ h hreceiver
    · obtain ⟨⟨kind, name⟩, s, hs, hx⟩ := hn.stores.mem_roll.1 hx
      rcases exists_seat_of_store hs hx with h | h <;> cases hseat x _ _ h hreceiver

end Names
end Patchbay
