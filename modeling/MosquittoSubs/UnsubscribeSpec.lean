import MosquittoSubs.SubscribeSpec
import MosquittoSubs.Shape

set_option autoImplicit false

/-!
# What an unsubscription does

`sub__remove` walks down the filter's path and unlinks the client's leaf at its node (from
its group, which goes when this empties it), and on the way back up `sub__remove_recurse`
deletes each node of the path that is left empty. The leaves and lists it leaves are those
of the removal at the filter's node; only the path's nodes below the root can go.
-/

namespace MosquittoSubs.UnsubscribeSpec
open Model SysTree Subscribe Unsubscribe Run Frame Invariant Preservation SubscribeSpec Shape

variable {env : Env} {s s' : Broker}

theorem subRemoveRecurse_nil (c : ClientRef) (g : Option String) (b : Addr) (reason : UInt8)
    (s : Broker) : subRemoveRecurse env c g b [] reason s =
      g.elim (subRemoveNormal env c b reason s) fun g => subRemoveShared env c b reason g s := by
  cases g <;> rfl

theorem subRemoveRecurse_nil_of_none (ht : Tree s) (c : ClientRef) (g : Option String)
    (reason : UInt8) {b : Addr} (hb : s.hier b = none) :
    (subRemoveRecurse env c g b [] reason s).2.2 = s := by
  cases g with
  | none =>
    show (subRemoveNormal env c b reason s).2.2 = s
    unfold subRemoveNormal
    rw [ht.normalDead b hb]
    rfl
  | some g =>
    show (subRemoveShared env c b reason g s).2.2 = s
    have hg : s.subs (.shared b g) = [] := by
      by_contra hne
      simpa [Broker.groups, hb] using (ht.groups b g).mpr hne
    unfold subRemoveShared
    rw [hg]
    rfl

theorem subRemoveRecurse_cons_none {a : Addr} {t : String} (hn : s.hier (t :: a) = none)
    (c : ClientRef) (g : Option String) (ts : List String) (reason : UInt8) :
    (subRemoveRecurse env c g a (t :: ts) reason s).2.2 = s := by
  simp [subRemoveRecurse, hn]

theorem subRemoveRecurse_cons_some {a : Addr} {t : String} {n : Subhier}
    (hn : s.hier (t :: a) = some n) (c : ClientRef) (g : Option String) (ts : List String)
    (reason : UInt8) : (subRemoveRecurse env c g a (t :: ts) reason s).2.2 =
      pruneChild a t (subRemoveRecurse env c g (t :: a) ts reason s).2.2 := by
  simp [subRemoveRecurse, hn]

theorem removeAt_cases (hs : Inv env s) (c : ClientRef) (b : Addr) (reason : UInt8)
    (g : Option String) :
    ((s.subs (Host.of b g)).find? (s.leafOf c) = none ∧
      (subRemoveRecurse env c g b [] reason s).2.2 = s) ∨
    (∃ l leaf, (s.subs (Host.of b g)).find? (s.leafOf c) = some l ∧ s.leaves l = some leaf ∧
      leaf.context = c ∧ leaf.host = some (Host.of b g) ∧
      ∃ t, Unlinked s t (Host.of b g) l ∧ Rot t (subRemoveRecurse env c g b [] reason s).2.2 ∧
        (subRemoveRecurse env c g b [] reason s).2.2.subs (Host.of b g) = t.subs (Host.of b g)) := by
  rw [subRemoveRecurse_nil]
  cases g with
  | none =>
    simp only [Option.elim]
    rcases h : subRemoveNormal env c b reason s with ⟨rc, reason', s'⟩
    rcases subRemoveNormal_cases hs h with ⟨hf, -, -, rfl⟩ |
      ⟨l, leaf, -, hf, hl, hc, hh, -, -, -, t, hun, -, -, -, -, hrot⟩
    · exact .inl ⟨hf, rfl⟩
    · exact .inr ⟨l, leaf, hf, hl, hc, hh, t, hun, hrot, hrot.normal b⟩
  | some g =>
    simp only [Option.elim]
    rcases h : subRemoveShared env c b reason g s with ⟨rc, reason', s'⟩
    rcases subRemoveShared_cases hs h with ⟨hf, -, -, rfl⟩ |
      ⟨l, leaf, -, hf, hl, hc, hh, -, -, -, hun, -⟩
    · exact .inl ⟨hf, rfl⟩
    · exact .inr ⟨l, leaf, hf, hl, hc, hh, s', hun, Rot.refl _, rfl⟩

theorem mem_of_unlinked {t : Broker} {x : Host} {l : LeafRef} (hun : Unlinked s t x l)
    {m : LeafRef} (hm : m ≠ l) (y : Host) : m ∈ t.subs y ↔ m ∈ s.subs y := by
  rw [hun.subs, Function.update_apply]
  split_ifs with hy
  · subst hy
    exact List.mem_erase_of_ne hm
  · rfl

theorem removeAt_frame (hs : Inv env s) (c : ClientRef) (b : Addr) (reason : UInt8)
    (g : Option String) :
    let r := (subRemoveRecurse env c g b [] reason s).2.2
    let x := Host.of b g
    (∀ l ∈ s.subs x, s.leafOf c l = true → r.subs x = (s.subs x).erase l ∧ r.leaves l = none) ∧
    (∀ l leaf, s.leaves l = some leaf → ¬(leaf.context = c ∧ leaf.host = some x) →
      r.leaves l = some leaf ∧ ∀ y, l ∈ r.subs y ↔ l ∈ s.subs y) ∧
    (∀ y, y ≠ x → (r.subs y).Perm (s.subs y)) := by
  dsimp only
  rcases removeAt_cases hs c b reason g with ⟨hf, hr⟩ | ⟨l₀, leaf₀, hf, hl₀, hc₀, hh₀, t, hun, hrot, hx⟩
  · refine ⟨fun l hl hc => absurd hc (List.find?_eq_none.mp hf l hl), fun l leaf hl _ => ?_,
      fun y _ => ?_⟩
    · exact ⟨by rw [hr, hl], fun y => by rw [hr]⟩
    · rw [hr]
  · refine ⟨fun l hl hc => ?_, fun l leaf hl hne => ?_, fun y hy => ?_⟩
    · obtain ⟨leaf, hleaf, hh⟩ := (hs.lists.listed _ l).mp hl
      have hcl : leaf.context = c := by simpa [Broker.leafOf, hleaf] using hc
      have hfl := find_leafOf_self hs.lists hleaf hh
      rw [hcl, hf] at hfl
      have hl : l₀ = l := Option.some.inj hfl
      subst hl
      exact ⟨by rw [hx, hun.subs, Function.update_same],
        by rw [hrot.leaves, hun.leaves, Function.update_same]⟩
    · have hl₀l : l ≠ l₀ := by
        rintro rfl
        rw [hl] at hl₀
        cases hl₀
        exact hne ⟨hc₀, hh₀⟩
      refine ⟨by rw [hrot.leaves, hun.leaves, Function.update_noteq hl₀l, hl], fun y => ?_⟩
      rw [hrot.mem_subs, mem_of_unlinked hun hl₀l]
    · exact (hrot.subs_perm y).trans (.of_eq (by rw [hun.subs, Function.update_noteq hy]))

theorem isSome_removeAt (hs : Inv env s) (c : ClientRef) (b : Addr) (reason : UInt8)
    (g : Option String) (y : Addr) :
    ((subRemoveRecurse env c g b [] reason s).2.2.hier y).isSome ↔ (s.hier y).isSome := by
  rw [subRemoveRecurse_nil]
  cases g with
  | none =>
    simp only [Option.elim]
    rcases h : subRemoveNormal env c b reason s with ⟨rc, reason', s'⟩
    rcases subRemoveNormal_cases hs h with ⟨-, -, -, rfl⟩ |
      ⟨l, leaf, -, -, -, -, -, -, -, -, t, -, hhier, -, -, -, hrot⟩
    · rfl
    · dsimp only
      rw [hrot.hier, hhier]
  | some g =>
    simp only [Option.elim]
    rcases h : subRemoveShared env c b reason g s with ⟨rc, reason', s'⟩
    rcases subRemoveShared_cases hs h with ⟨-, -, -, rfl⟩ |
      ⟨l, leaf, -, -, -, -, -, -, -, -, -, hhier, -⟩
    · rfl
    · dsimp only
      rw [hhier]
      by_cases hy : y = b
      · subst hy
        simp
      · rw [Function.update_noteq hy]

/-! ## The pruning step -/

theorem pruneChild_eq (a : Addr) (t : String) (s : Broker) :
    pruneChild a t s = { s with hier := (pruneChild a t s).hier } := by
  unfold pruneChild
  split
  · split_ifs <;> rfl
  · rfl

theorem subs_pruneChild (a : Addr) (t : String) (s : Broker) :
    (pruneChild a t s).subs = s.subs := by
  rw [pruneChild_eq]

theorem pruneChild_hier_of_ne {a y : Addr} {t : String} (hya : y ≠ a) (hyt : y ≠ t :: a) :
    (pruneChild a t s).hier y = s.hier y := by
  unfold pruneChild
  split
  · split_ifs
    · simp [Function.update_noteq hyt, Function.update_noteq hya]
    · rfl
  · rfl

theorem isSome_pruneChild {a y : Addr} {t : String} (hyt : y ≠ t :: a) :
    ((pruneChild a t s).hier y).isSome = (s.hier y).isSome := by
  unfold pruneChild
  split
  · split_ifs
    · by_cases hya : y = a
      · subst hya
        simp [Function.update_noteq hyt]
      · simp [Function.update_noteq hyt, Function.update_noteq hya]
    · rfl
  · rfl

theorem pruneChild_of_bare {a : Addr} {t : String} (hb : bare s (t :: a)) :
    (pruneChild a t s).hier (t :: a) = none := by
  unfold pruneChild
  split
  · rw [if_pos ⟨hb.2.2, hb.1, hb.2.1⟩]
    simp
  · assumption

theorem pruneChild_of_not_bare {a : Addr} {t : String} (hb : ¬ bare s (t :: a)) :
    pruneChild a t s = s := by
  unfold pruneChild
  split
  · rw [if_neg fun ⟨h₁, h₂, h₃⟩ => hb ⟨h₂, h₃, h₁⟩]
  · rfl

/-! ## The recursion -/

theorem path_cons (t : String) (ts : List String) (a : Addr) :
    (t :: ts).reverse ++ a = ts.reverse ++ t :: a := by
  simp

theorem subRemoveRecurse_eq (c : ClientRef) (g : Option String) (ts : List String) :
    ∀ {a : Addr} {reason : UInt8} {s : Broker}, Tree s →
      ∃ H, (subRemoveRecurse env c g a ts reason s).2.2 =
        { (subRemoveRecurse env c g (ts.reverse ++ a) [] reason s).2.2 with hier := H } := by
  induction ts with
  | nil => exact fun _ => ⟨_, rfl⟩
  | cons t ts ih =>
    intro a reason s ht
    rw [path_cons]
    rcases hn : s.hier (t :: a) with _ | n
    · have hb : s.hier (ts.reverse ++ t :: a) = none :=
        Option.not_isSome_iff_eq_none.mp fun h => by
          simpa [hn] using hier_of_append ht ts.reverse (List.cons_ne_nil t a) h
      exact ⟨s.hier, by rw [subRemoveRecurse_cons_none hn, subRemoveRecurse_nil_of_none ht c g _ hb]⟩
    · obtain ⟨H, hH⟩ := @ih (t :: a) reason s ht
      refine ⟨(pruneChild a t (subRemoveRecurse env c g (t :: a) ts reason s).2.2).hier, ?_⟩
      rw [subRemoveRecurse_cons_some hn, pruneChild_eq, hH]

theorem isSome_subRemoveRecurse (c : ClientRef) (g : Option String) (ts : List String) :
    ∀ {a : Addr} {reason : UInt8} {s : Broker}, Inv env s → ∀ y,
      ((subRemoveRecurse env c g a ts reason s).2.2.hier y).isSome → (s.hier y).isSome := by
  induction ts with
  | nil => exact fun hs y => (isSome_removeAt hs c _ _ g y).mp
  | cons t ts ih =>
    intro a reason s hs y hy
    rcases hn : s.hier (t :: a) with _ | n
    · rwa [subRemoveRecurse_cons_none hn] at hy
    · by_cases hyt : y = t :: a
      · simp [hyt, hn]
      · rw [subRemoveRecurse_cons_some hn, isSome_pruneChild hyt] at hy
        exact ih hs y hy

theorem removed_subRemoveRecurse (c : ClientRef) (g : Option String) (ts : List String) :
    ∀ {a : Addr} {reason : UInt8} {s : Broker}, Inv env s → ∀ y, (s.hier y).isSome →
      (subRemoveRecurse env c g a ts reason s).2.2.hier y = none →
        y <:+ ts.reverse ++ a ∧ a.length < y.length := by
  induction ts with
  | nil =>
    intro a reason s hs y hy hy'
    simpa [hy'] using (isSome_removeAt hs c a reason g y).mpr hy
  | cons t ts ih =>
    intro a reason s hs y hy hy'
    rw [path_cons]
    rcases hn : s.hier (t :: a) with _ | n
    · rw [subRemoveRecurse_cons_none hn] at hy'
      simp [hy'] at hy
    · rw [subRemoveRecurse_cons_some hn] at hy'
      by_cases hyt : y = t :: a
      · subst hyt
        exact ⟨List.suffix_append _ _, by simp⟩
      · have hr := isSome_pruneChild (s := (subRemoveRecurse env c g (t :: a) ts reason s).2.2) hyt
        obtain ⟨h₁, h₂⟩ := ih hs y hy (by simpa [hy'] using hr.symm)
        exact ⟨h₁, by simp at h₂; omega⟩

theorem emptied_subRemoveRecurse (c : ClientRef) (g : Option String) (ts : List String) :
    ∀ {a : Addr} {reason : UInt8} {s : Broker}, Inv env s → a ≠ [] → ∀ y, (s.hier y).isSome →
      (subRemoveRecurse env c g a ts reason s).2.2.hier y = none → ∀ z : Host, z.addr = y →
        (subRemoveRecurse env c g (ts.reverse ++ a) [] reason s).2.2.subs z = [] := by
  induction ts with
  | nil =>
    intro a reason s hs _ y hy hy'
    simpa [hy'] using (isSome_removeAt hs c a reason g y).mpr hy
  | cons t ts ih =>
    intro a reason s hs ha y hy hy' z hz
    rw [path_cons]
    rcases hn : s.hier (t :: a) with _ | n
    · rw [subRemoveRecurse_cons_none hn] at hy'
      simp [hy'] at hy
    rw [subRemoveRecurse_cons_some hn] at hy'
    by_cases hyt : y = t :: a
    · subst hyt
      have hr : ((subRemoveRecurse env c g (t :: a) ts reason s).2.2.hier (t :: a)).isSome := by
        by_contra hr
        have := (removed_subRemoveRecurse c g ts hs (t :: a) hy (by simpa using hr)).2
        simp at this
      have hb : bare (subRemoveRecurse env c g (t :: a) ts reason s).2.2 (t :: a) := by
        by_contra hb
        rw [pruneChild_of_not_bare hb] at hy'
        simp [hy'] at hr
      have ht : Tree (subRemoveRecurse env c g (t :: a) ts reason s).2.2 :=
        (inv_subRemoveRecurse c g ts hs (List.cons_ne_nil t a)).tree
      obtain ⟨H, hH⟩ : ∃ H, (subRemoveRecurse env c g (t :: a) ts reason s).2.2 =
          { (subRemoveRecurse env c g (ts.reverse ++ t :: a) [] reason s).2.2 with hier := H } :=
        subRemoveRecurse_eq c g ts hs.tree
      rw [hH] at hb ht
      cases z with
      | normal b =>
        obtain rfl : b = t :: a := hz
        exact hb.1
      | shared b g' =>
        obtain rfl : b = t :: a := hz
        by_contra hne
        simpa [hb.2.1] using (ht.groups _ g').mpr hne
    · exact ih hs (List.cons_ne_nil t a) y hy
        (by simpa [hy'] using (isSome_pruneChild (s := (subRemoveRecurse env c g (t :: a) ts reason s).2.2) hyt).symm) z hz

theorem not_bare_subRemoveRecurse (c : ClientRef) (g : Option String) (ts : List String) :
    ∀ {a : Addr} {reason : UInt8} {s : Broker}, Tree s → ∀ y,
      ((subRemoveRecurse env c g a ts reason s).2.2.hier y).isSome → y <:+ ts.reverse ++ a →
        a.length < y.length → ¬ bare (subRemoveRecurse env c g a ts reason s).2.2 y := by
  induction ts with
  | nil =>
    intro a reason s _ y _ hy hl
    exact absurd hy.length_le (by simpa using hl)
  | cons t ts ih =>
    intro a reason s ht y hy hpath hl
    rw [path_cons] at hpath
    obtain ⟨zs, rfl⟩ := List.suffix_of_suffix_length_le (List.suffix_append _ _) hpath hl
    rcases hn : s.hier (t :: a) with _ | n
    · rw [subRemoveRecurse_cons_none hn] at hy
      simpa [hn] using hier_of_append ht zs (List.cons_ne_nil t a) hy
    · rw [subRemoveRecurse_cons_some hn] at hy ⊢
      cases zs with
      | nil =>
        by_cases hb : bare (subRemoveRecurse env c g (t :: a) ts reason s).2.2 (t :: a)
        · simp [pruneChild_of_bare hb] at hy
        · rwa [pruneChild_of_not_bare hb]
      | cons z zs =>
        have hya : z :: zs ++ t :: a ≠ a := fun h => by
          have := congrArg List.length h
          simp at this
          omega
        have hyt : z :: zs ++ t :: a ≠ t :: a := fun h => by
          have := congrArg List.length h
          simp at this
          omega
        have hh := pruneChild_hier_of_ne (s := (subRemoveRecurse env c g (t :: a) ts reason s).2.2)
          hya hyt
        rw [bare_congr hh (congrFun (subs_pruneChild _ _ _) _)]
        exact ih ht _ (hh ▸ hy) hpath (by simp; omega)

/-! ## `sub__remove` -/

theorem subRemove_eq (ht : Tree s) (c : ClientRef) (ts : List String) (g : Option String)
    (reason : UInt8) : ∃ H, (subRemove env c ts g reason s).2.2 =
      { (subRemoveRecurse env c g (filterNode ts) [] mqttRcNoSubscriptionExisted s).2.2 with
        hier := H } := by
  cases ts with
  | nil =>
    have hb : s.hier (filterNode []) = none := ht.root
    exact ⟨s.hier, by rw [subRemoveRecurse_nil_of_none ht c g _ hb]; rfl⟩
  | cons t0 rest =>
    rcases hn : s.hier [t0] with _ | n
    · have hb : s.hier (filterNode (t0 :: rest)) = none :=
        Option.not_isSome_iff_eq_none.mp fun h => by
          simpa [hn] using hier_of_append ht (t0 :: rest).reverse (List.cons_ne_nil t0 []) h
      refine ⟨s.hier, ?_⟩
      simp only [subRemove, hn]
      rw [subRemoveRecurse_nil_of_none ht c g _ hb]
    · simp only [subRemove, hn]
      exact subRemoveRecurse_eq c g (t0 :: rest) ht

theorem subRemove_nodes (hs : Inv env s) (c : ClientRef) (ts : List String)
    (g : Option String) (reason : UInt8) :
    let s' := (subRemove env c ts g reason s).2.2
    (∀ y, (s'.hier y).isSome → (s.hier y).isSome) ∧
    (∀ y, (s.hier y).isSome → s'.hier y = none → 2 ≤ y.length ∧ y <:+ filterNode ts) ∧
    (∀ y, (s'.hier y).isSome → 2 ≤ y.length → y <:+ filterNode ts → ¬ bare s' y) := by
  cases ts with
  | nil =>
    refine ⟨fun _ h => h, fun y h h' => absurd h (by rw [show s.hier y = none from h']; simp),
      fun y _ hl hy => ?_⟩
    have := hy.length_le
    simp only [filterNode, List.length_nil] at this
    omega
  | cons t0 rest =>
    rcases hn : s.hier [t0] with _ | n
    · simp only [subRemove, hn]
      refine ⟨fun _ h => h, fun _ h h' => by simp [h'] at h, fun y hy hl hpath => ?_⟩
      obtain ⟨zs, rfl⟩ := List.suffix_of_suffix_length_le (List.suffix_append _ _) hpath
        (by simp; omega)
      simpa [hn] using hier_of_append hs.tree zs (List.cons_ne_nil t0 []) hy
    · simp only [subRemove, hn]
      refine ⟨isSome_subRemoveRecurse c g _ hs, fun y hy hy' => ?_, fun y hy hl hpath =>
        not_bare_subRemoveRecurse c g _ hs.tree y hy hpath hl⟩
      obtain ⟨h₁, h₂⟩ := removed_subRemoveRecurse c g _ hs y hy hy'
      exact ⟨h₂, h₁⟩

theorem emptied_subRemove (hs : Inv env s) (c : ClientRef) (ts : List String)
    (g : Option String) (reason : UInt8) {y : Addr} (hy : (s.hier y).isSome)
    (hgone : (subRemove env c ts g reason s).2.2.hier y = none) (z : Host) (hz : z.addr = y) :
    (subRemoveRecurse env c g (filterNode ts) [] mqttRcNoSubscriptionExisted s).2.2.subs z = [] := by
  cases ts with
  | nil =>
    simp only [subRemove] at hgone
    simp [hgone] at hy
  | cons t0 rest =>
    rcases hn : s.hier [t0] with _ | n
    · simp only [subRemove, hn] at hgone
      simp [hgone] at hy
    · simp only [subRemove, hn] at hgone
      exact emptied_subRemoveRecurse c g (t0 :: rest) hs (List.cons_ne_nil t0 []) y hy hgone z hz

/-- An unsubscription removes the client's leaf at the filter's node, if it has one, with
its group when that empties it, and deletes the nodes of the filter's path below the root
that it leaves with no leaf, group or child: every other leaf stays where it was with its
options, and every other group and node stays. -/
theorem subRemove_frame {ok : Op → Int → Prop} (h : Reachable env ok s) (c : ClientRef)
    (ts : List String) (g : Option String) (reason : UInt8) :
    let s' := (subRemove env c ts g reason s).2.2
    let x := Host.of (filterNode ts) g
    (∀ l ∈ s.subs x, s.leafOf c l = true → s'.subs x = (s.subs x).erase l ∧ s'.leaves l = none) ∧
    (∀ g', g = some g' → (g' ∈ s'.groups (filterNode ts) ↔ s'.subs x ≠ [])) ∧
    (∀ l leaf, s.leaves l = some leaf → ¬(leaf.context = c ∧ leaf.host = some x) →
      s'.leaves l = some leaf ∧ ∀ y, l ∈ s'.subs y ↔ l ∈ s.subs y) ∧
    (∀ y g', g' ∈ s.groups y → Host.shared y g' ≠ x → g' ∈ s'.groups y) ∧
    (∀ y, (s'.hier y).isSome → (s.hier y).isSome) ∧
    (∀ y, (s.hier y).isSome → s'.hier y = none → 2 ≤ y.length ∧ y <:+ filterNode ts) ∧
    (∀ y, (s.hier y).isSome → s'.hier y = none →
      (∀ z : Host, z.addr = y → ∀ l ∈ s.subs z, z = x ∧ s.leafOf c l = true ∧ s'.leaves l = none) ∧
      ∀ k, (s.hier (k :: y)).isSome → s'.hier (k :: y) = none) ∧
    (∀ y, (s'.hier y).isSome → 2 ≤ y.length → y <:+ filterNode ts → ¬ bare s' y) := by
  have hs := inv_reachable h
  have hs' := inv_subRemove hs c ts g reason
  obtain ⟨H, hH⟩ := subRemove_eq hs.tree c ts g reason
  obtain ⟨hown, hother, hperm⟩ := removeAt_frame hs c (filterNode ts) mqttRcNoSubscriptionExisted g
  obtain ⟨hnew, hgone, hkept⟩ := subRemove_nodes hs c ts g reason
  dsimp only at hown hother hperm hnew hgone hkept ⊢
  -- a deleted node held only the client's leaf at the filter's node, and its children go too
  have hdel : ∀ y, (s.hier y).isSome → (subRemove env c ts g reason s).2.2.hier y = none →
      (∀ z : Host, z.addr = y → ∀ l ∈ s.subs z, z = Host.of (filterNode ts) g ∧
        s.leafOf c l = true ∧ (subRemove env c ts g reason s).2.2.leaves l = none) ∧
      ∀ k, (s.hier (k :: y)).isSome → (subRemove env c ts g reason s).2.2.hier (k :: y) = none := by
    intro y hy hy'
    have hy0 : y ≠ [] := fun e => by simpa [e] using (hgone y hy hy').1
    refine ⟨fun z hz l hl => ?_, fun k _ => hs'.tree.hier_child_none hy' hy0 k⟩
    obtain ⟨leaf, hleaf, hh⟩ := (hs.lists.listed z l).mp hl
    rw [hH]
    by_cases hcx : leaf.context = c ∧ leaf.host = some (Host.of (filterNode ts) g)
    · obtain rfl : z = Host.of (filterNode ts) g := Option.some.inj (hh.symm.trans hcx.2)
      have hc : s.leafOf c l = true := by simp [Broker.leafOf, hleaf, hcx.1]
      exact ⟨rfl, hc, (hown l hl hc).2⟩
    · have := ((hother l leaf hleaf hcx).2 z).mpr hl
      simp [emptied_subRemove hs c ts g reason hy hy' z hz] at this
  rw [hH] at hs' hdel ⊢
  refine ⟨hown, fun g' hg => ?_, hother, fun y g' hg hne => ?_, ?_, ?_, hdel, ?_⟩
  · subst hg
    exact hs'.tree.groups _ _
  · refine (hs'.tree.groups y g').mpr fun h0 => (hs.tree.groups y g').mp hg ?_
    exact ((hperm _ hne).symm.trans (.of_eq h0)).eq_nil
  all_goals rw [← hH]
  exacts [hnew, hgone, hkept]

theorem subRemove_frame_after_subscribe :
    let s₀ := ((Op.subAdd 1 ⟨"a", 0, 0⟩ ["", "a"] none).run (plainEnv false) openedBroker).2
    let s' := (subRemove (plainEnv false) 1 ["", "a"] none 0 s₀).2.2
    let x := Host.of (filterNode ["", "a"]) none
    (∀ l ∈ s₀.subs x, s₀.leafOf 1 l = true →
      s'.subs x = (s₀.subs x).erase l ∧ s'.leaves l = none) ∧
    (∀ g', none = some g' → (g' ∈ s'.groups (filterNode ["", "a"]) ↔ s'.subs x ≠ [])) ∧
    (∀ l leaf, s₀.leaves l = some leaf → ¬(leaf.context = 1 ∧ leaf.host = some x) →
      s'.leaves l = some leaf ∧ ∀ y, l ∈ s'.subs y ↔ l ∈ s₀.subs y) ∧
    (∀ y g', g' ∈ s₀.groups y → Host.shared y g' ≠ x → g' ∈ s'.groups y) ∧
    (∀ y, (s'.hier y).isSome → (s₀.hier y).isSome) ∧
    (∀ y, (s₀.hier y).isSome → s'.hier y = none → 2 ≤ y.length ∧ y <:+ filterNode ["", "a"]) ∧
    (∀ y, (s₀.hier y).isSome → s'.hier y = none →
      (∀ z : Host, z.addr = y → ∀ l ∈ s₀.subs z, z = x ∧ s₀.leafOf 1 l = true ∧ s'.leaves l = none) ∧
      ∀ k, (s₀.hier (k :: y)).isSome → s'.hier (k :: y) = none) ∧
    (∀ y, (s'.hier y).isSome → 2 ≤ y.length → y <:+ filterNode ["", "a"] → ¬ bare s' y) :=
  subRemove_frame
    (@Reachable.step (plainEnv false) (fun _ _ => True) _ _ (.init initial_openedBroker) trivial)
    1 ["", "a"] none 0

/-- With no `db.subs` root for the filter's first level, `sub__remove` returns
`MOSQ_ERR_SUCCESS` without writing `*reason`. From the state `db__open` leaves, which has the
roots `""` and `"$SYS"` and no subscription, an unsubscription of client 1 from `$x` with a
reason of 0 on entry gets 0 back. -/
theorem subRemove_keeps_reason_without_root :
    let r : Int × UInt8 × Broker := subRemove (plainEnv false) 1 ["$x"] none 0 openedBroker
    (∀ l, openedBroker.leaves l = none) ∧ openedBroker.hier ["$x"] = none ∧
      r.1 = MosqErr.success ∧ r.2.1 = 0 ∧ r.2.1 ≠ mqttRcNoSubscriptionExisted :=
  ⟨fun _ => rfl, rfl, by decide, by decide, by decide⟩

end MosquittoSubs.UnsubscribeSpec
