import MosquittoSubs.UnsubscribeSpec

set_option autoImplicit false

/-!
# What a session cleanup does

`sub__clean_session` visits the client's `subs` array slot by slot, unlinks and frees the
client's leaf in the list of each slot's leaf, and runs the `tmp_remove_subs` loop up from a
node it leaves empty. `Cleaned c s t` is what every part of it keeps, from the state `s` to
`t`: no new leaf, every other client's leaf with its fields and its lists, no new node and
every root.
-/

namespace MosquittoSubs.CleanSpec
open Model SysTree Subscribe Unsubscribe Clean Run Frame Invariant Preservation Shape
  UnsubscribeSpec

variable {env : Env} {c : ClientRef} {s t u : Broker}

/-- `t` is `s` after part of the cleanup of the client `c`. -/
structure Cleaned (c : ClientRef) (s t : Broker) : Prop where
  leaves : ∀ l leaf, t.leaves l = some leaf → s.leaves l = some leaf
  others : ∀ l leaf, s.leaves l = some leaf → leaf.context ≠ c →
    t.leaves l = some leaf ∧ ∀ x, l ∈ t.subs x ↔ l ∈ s.subs x
  kept : ∀ a, (t.hier a).isSome → (s.hier a).isSome
  nonRoot : ∀ a, (s.hier a).isSome → t.hier a = none → 2 ≤ a.length

namespace Cleaned

theorem refl (c : ClientRef) (s : Broker) : Cleaned c s s :=
  ⟨fun _ _ h => h, fun _ _ h _ => ⟨h, fun _ => Iff.rfl⟩, fun _ h => h,
    fun _ h h' => by simp [h'] at h⟩

theorem trans (h₁ : Cleaned c s t) (h₂ : Cleaned c t u) : Cleaned c s u where
  leaves l leaf h := h₁.leaves l leaf (h₂.leaves l leaf h)
  others l leaf hl hc :=
    let ⟨ht, hm⟩ := h₁.others l leaf hl hc
    let ⟨hu, hm'⟩ := h₂.others l leaf ht hc
    ⟨hu, fun x => (hm' x).trans (hm x)⟩
  kept a h := h₁.kept a (h₂.kept a h)
  nonRoot a hs hu := by
    cases ht : t.hier a with
    | none => exact h₁.nonRoot a hs ht
    | some n => exact h₂.nonRoot a (by simp [ht]) hu

theorem of_eq (hl : t.leaves = s.leaves) (hs : t.subs = s.subs) (hh : t.hier = s.hier) :
    Cleaned c s t :=
  ⟨fun _ _ h => hl ▸ h, fun _ _ h _ => ⟨hl ▸ h, fun _ => by rw [hs]⟩, fun _ h => hh ▸ h,
    fun _ h h' => by simp [← hh, h'] at h⟩

theorem of_rot (h : Rot s t) : Cleaned c s t :=
  ⟨fun _ _ hl => h.leaves ▸ hl, fun l _ hl _ => ⟨h.leaves ▸ hl, fun x => h.mem_subs x l⟩,
    fun _ ha => h.hier ▸ ha, fun _ ha ht => by simp [← h.hier, ht] at ha⟩

theorem of_unlinked {x : Host} {l : LeafRef} {leaf : Subleaf} (hun : Unlinked s t x l)
    (hl : s.leaves l = some leaf) (hc : leaf.context = c)
    (hhier : ∀ a, (t.hier a).isSome = (s.hier a).isSome) : Cleaned c s t where
  leaves m leaf' h := by
    rw [hun.leaves, Function.update_apply] at h
    split_ifs at h
    exact h
  others m leaf' hm hcm := by
    have hml : m ≠ l := by
      rintro rfl
      rw [hl] at hm
      cases hm
      exact hcm hc
    exact ⟨by rw [hun.leaves, Function.update_noteq hml, hm], mem_of_unlinked hun hml⟩
  kept a h := hhier a ▸ h
  nonRoot a hs ht := absurd (hhier a) (by simp [ht, hs])

theorem of_prune {k : String} {p : Addr} (hp : p ≠ []) (c : ClientRef) (s : Broker) :
    Cleaned c s
      ((s.modifyHier p fun m => { m with children := m.children.erase k }).setHier (k :: p) none)
    where
  leaves _ _ h := h
  others _ _ h _ := ⟨h, fun _ => Iff.rfl⟩
  kept a h := by
    by_cases hk : a = k :: p
    · simp [hk] at h
    · by_cases ha : a = p
      · subst ha
        simpa [Function.update_noteq hk] using h
      · simpa [Function.update_noteq hk, Function.update_noteq ha] using h
  nonRoot a hs h := by
    by_cases hk : a = k :: p
    · subst hk
      simpa [Nat.succ_le_succ_iff, Nat.one_le_iff_ne_zero] using hp
    · by_cases ha : a = p
      · subst ha
        simp [Function.update_noteq hk] at h
        simp [h] at hs
      · simp [Function.update_noteq hk, Function.update_noteq ha] at h
        simp [h] at hs

end Cleaned

/-! ## The loop -/

theorem cleaned_removeUp (c : ClientRef) (a : Addr) : ∀ {s : Broker}, Cleaned c s (removeUp a s) := by
  induction a with
  | nil =>
    intro s
    exact .refl c s
  | cons k p ih =>
    intro s
    unfold removeUp
    rcases h : tmpRemoveSubs (k :: p) s with ⟨r, t⟩
    rcases tmpRemoveSubs_cases h with ⟨rfl, rfl, -⟩ | ⟨k', p', he, hp, -, -, -, rfl, hr⟩
    · exact .refl c _
    · cases he
      rcases hr with ⟨rfl, -⟩ | ⟨rfl, -⟩
      · exact .of_prune hp c _
      · exact (Cleaned.of_prune hp c _).trans ih

theorem cleaned_pruneEmpty (c : ClientRef) (a : Addr) (s : Broker) :
    Cleaned c s (pruneEmpty a s) := by
  unfold pruneEmpty
  split
  · split_ifs
    · exact cleaned_removeUp c a
    · exact .refl c s
  · exact .refl c s

theorem cleaned_cleanSlot {x : Option LeafRef} {rest : List (Option LeafRef)}
    (hs : CleanInv env c s (x :: rest)) : Cleaned c s (cleanSlot env c x s) := by
  cases x with
  | none => exact .refl c s
  | some l =>
    cases hl : s.leaves l with
    | none =>
      simp only [cleanSlot, hl]
      exact .refl c s
    | some leaf =>
      have hc := hs.own l leaf (List.mem_cons_self _ _) hl
      obtain ⟨a, ha⟩ := Option.isSome_iff_exists.mp (hs.lists.hosted l leaf hl)
      simp only [cleanSlot, hl, ha]
      subst hc
      let s₀ := { s with persistDeleted := s.persistDeleted ++ [(leaf.context, leaf.topicFilter)] }
      have hl₀ : s₀.leaves l = some leaf := hl
      have hlists : Lists env s₀ := hs.lists.congr (fun _ => List.Perm.refl _) (fun _ => rfl) le_rfl
      have hhost : leaf.host = some (Host.of a leaf.shared) := by simp [ha]
      refine (Cleaned.of_eq rfl rfl rfl : Cleaned leaf.context s s₀).trans
        (Cleaned.trans ?_ (cleaned_pruneEmpty _ a _))
      cases hg : leaf.shared with
      | none =>
        rw [hg] at hhost
        obtain ⟨u, hun, hhier, -, -, -, -, hrot⟩ := unlinkOwn_normal hlists hl₀ hhost
        exact (Cleaned.of_unlinked hun hl₀ rfl fun _ => by rw [hhier]).trans (.of_rot hrot)
      | some g =>
        rw [hg] at hhost
        obtain ⟨hun, hhier, -⟩ := unlinkOwn_shared hlists hl₀ hhost
        refine .of_unlinked hun hl₀ rfl fun b => ?_
        rw [hhier]
        by_cases hb : b = a
        · subst hb
          simp
        · rw [Function.update_noteq hb]

theorem cleaned_foldl (c : ClientRef) (rest : List (Option LeafRef)) :
    ∀ {s : Broker}, CleanInv env c s rest →
      Cleaned c s (rest.foldl (fun s slot => cleanSlot env c slot s) s) := by
  induction rest with
  | nil =>
    intro s _
    exact .refl c s
  | cons x rest ih => exact fun hs => (cleaned_cleanSlot hs).trans (ih hs.step)


theorem cleaned_subCleanSession (hs : Inv env s) (c : ClientRef) :
    Cleaned c s (subCleanSession env c s).2 :=
  (cleaned_foldl c _ (CleanInv.init hs c)).trans (.of_eq rfl rfl rfl)

theorem context_ne_of_subCleanSession (hs : Inv env s) (c : ClientRef) {l : LeafRef}
    {leaf : Subleaf} (hl : (subCleanSession env c s).2.leaves l = some leaf) : leaf.context ≠ c :=
  fun hc => by simpa using (cleanInv_foldl c _ (CleanInv.init hs c)).remaining l leaf hl hc

/-- A session cleanup frees every leaf of the client and keeps every other client's leaf,
with its fields, in its lists. It deletes exactly the groups whose members were all the
client's, and only nodes below a root that held no other client's leaf and whose children
go too; from a state reached by successful subscriptions every node below a root that it
keeps holds a leaf, a group or a child. The client's array is emptied. -/
theorem subCleanSession_complete {ok : Op → Int → Prop} (h : Reachable env ok s) (c : ClientRef) :
    let s' := (subCleanSession env c s).2
    (∀ x l, l ∈ s'.subs x → ∃ leaf, s'.leaves l = some leaf ∧ leaf.context ≠ c) ∧
    (∀ l leaf, s.leaves l = some leaf → leaf.context ≠ c →
      s'.leaves l = some leaf ∧ ∀ x, l ∈ s'.subs x ↔ l ∈ s.subs x) ∧
    (∀ a g, g ∈ s'.groups a ↔
      g ∈ s.groups a ∧ ∃ l ∈ s.subs (.shared a g), s.leafOf c l = false) ∧
    (∀ a, (s'.hier a).isSome → (s.hier a).isSome) ∧
    (∀ a, (s.hier a).isSome → s'.hier a = none →
      2 ≤ a.length ∧ (∀ x, x.addr = a → ∀ l ∈ s.subs x, s.leafOf c l = true) ∧
        ∀ k, s'.hier (k :: a) = none) ∧
    (Reachable env (ShapeOk env) s → ∀ a, (s'.hier a).isSome → 2 ≤ a.length → ¬ bare s' a) ∧
    s'.contexts c = ⟨[], 0⟩ := by
  have hs := inv_reachable h
  have hs' := inv_subCleanSession hs c
  have hcl := cleaned_subCleanSession hs c
  have hstay : ∀ x l, l ∈ s.subs x → s.leafOf c l = false →
      l ∈ (subCleanSession env c s).2.subs x := fun x l hl hc => by
    obtain ⟨leaf, hleaf, -⟩ := (hs.lists.listed x l).mp hl
    exact ((hcl.others l leaf hleaf (by simpa [Broker.leafOf, hleaf] using hc)).2 x).mpr hl
  refine ⟨fun x l hx => ?_, hcl.others, fun a g => ⟨fun hg => ?_, fun ⟨_, l, hl, hc⟩ =>
    (hs'.tree.groups a g).mpr (List.ne_nil_of_mem (hstay _ l hl hc))⟩, hcl.kept,
    fun a ha hgone => ⟨hcl.nonRoot a ha hgone, fun x hx l hl => ?_, fun k => ?_⟩,
    fun hok => full_subCleanSession hs (full_reachable hok) c, by simp [subCleanSession]⟩
  · obtain ⟨leaf, hl, -⟩ := (hs'.lists.listed x l).mp hx
    exact ⟨leaf, hl, context_ne_of_subCleanSession hs c hl⟩
  · obtain ⟨l, hl⟩ := List.exists_mem_of_ne_nil _ ((hs'.tree.groups a g).mp hg)
    obtain ⟨leaf, hleaf, -⟩ := (hs'.lists.listed _ l).mp hl
    have hc := context_ne_of_subCleanSession hs c hleaf
    have hleaf₀ := hcl.leaves l leaf hleaf
    have hl₀ := ((hcl.others l leaf hleaf₀ hc).2 _).mp hl
    exact ⟨(hs.tree.groups a g).mpr (List.ne_nil_of_mem hl₀), l, hl₀,
      by simp [Broker.leafOf, hleaf₀, hc]⟩
  · by_contra hc
    obtain ⟨leaf, hleaf, hh⟩ :=
      (hs'.lists.listed x l).mp (hstay x l hl (by simpa using hc))
    have := hier_of_listed hs'.tree hs'.lists hleaf hh
    simp [hx, hgone] at this
  · refine hs'.tree.hier_child_none hgone (fun ha0 => ?_) k
    have := hcl.nonRoot a ha hgone
    simp [ha0] at this


theorem subCleanSession_complete_after_subscribe :
    let s := ((Op.subAdd 1 ⟨"a", 0, 0⟩ ["", "a"] none).run (plainEnv false) openedBroker).2
    let s' := (subCleanSession (plainEnv false) 1 s).2
    (∀ x l, l ∈ s'.subs x → ∃ leaf, s'.leaves l = some leaf ∧ leaf.context ≠ 1) ∧
    (∀ l leaf, s.leaves l = some leaf → leaf.context ≠ 1 →
      s'.leaves l = some leaf ∧ ∀ x, l ∈ s'.subs x ↔ l ∈ s.subs x) ∧
    (∀ a g, g ∈ s'.groups a ↔
      g ∈ s.groups a ∧ ∃ l ∈ s.subs (.shared a g), s.leafOf 1 l = false) ∧
    (∀ a, (s'.hier a).isSome → (s.hier a).isSome) ∧
    (∀ a, (s.hier a).isSome → s'.hier a = none →
      2 ≤ a.length ∧ (∀ x, x.addr = a → ∀ l ∈ s.subs x, s.leafOf 1 l = true) ∧
        ∀ k, s'.hier (k :: a) = none) ∧
    (Reachable (plainEnv false) (ShapeOk (plainEnv false)) s →
      ∀ a, (s'.hier a).isSome → 2 ≤ a.length → ¬ bare s' a) ∧
    s'.contexts 1 = ⟨[], 0⟩ :=
  @subCleanSession_complete (plainEnv false) _ (ShapeOk (plainEnv false))
    (.step (.subAdd 1 ⟨"a", 0, 0⟩ ["", "a"] none) (.init initial_openedBroker)
      ⟨by decide, by decide, .inl (by decide)⟩) 1

/-- A subscription whose leaf cannot be allocated returns `MOSQ_ERR_NOMEM` and leaves behind
the node it made below the root; a session cleanup keeps that empty node. -/
theorem subCleanSession_keeps_empty_node :
    let env := { plainEnv false with allocOk := fun n => n ≠ 2 }
    let s := ((Op.subAdd 1 ⟨"$x", 0, 0⟩ ["$x"] none).run env emptyBroker)
    let s' := (subCleanSession env 1 s.2).2
    Reachable env (fun _ _ => True) s.2 ∧ s.1 = MosqErr.nomem ∧
      (s'.hier ["$x", "$x"]).isSome ∧ bare s' ["$x", "$x"] :=
  ⟨.step _ (.init initial_emptyBroker) trivial, by decide, by decide, by decide⟩

end MosquittoSubs.CleanSpec
