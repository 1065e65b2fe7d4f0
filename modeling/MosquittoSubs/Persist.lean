import MosquittoSubs.Preservation

set_option autoImplicit false

/-!
# What a session cleanup tells the persistence plugin

`sub__clean_session` calls `plugin_persist__handle_subscription_delete` for each slot of the
client's array that holds a leaf with a node, just before it unlinks that leaf. In every
state of the invariant the array holds each of the client's leaves in exactly one slot, so
the plugin hears of each subscription of the client exactly once, with its filter text, and
of nothing else: no delete is lost and none is repeated.
-/

namespace MosquittoSubs.Persist
open Model Publish SysTree Subscribe Clean Run Frame Invariant Preservation

variable (env : Env) (c : ClientRef) {s : Broker}

theorem unlinkOwn_keeps (a : Addr) (g : Option String) (s : Broker) :
    (unlinkOwn env c a g s).leaves = s.leaves ∧
      (unlinkOwn env c a g s).persistDeleted = s.persistDeleted := by
  unfold unlinkOwn
  cases g with
  | some g =>
    dsimp only
    split
    · unfold subRemoveSharedLeaf deleteShared
      dsimp only
      split_ifs <;> exact ⟨rfl, rfl⟩
    · exact ⟨rfl, rfl⟩
  | none =>
    dsimp only
    split
    · split_ifs
      · exact ⟨(subUpdateSubscribedTopics_rot env a _).leaves,
          (subUpdateSubscribedTopics_rot env a _).persistDeleted⟩
      · exact ⟨rfl, rfl⟩
    · exact ⟨rfl, rfl⟩

theorem cleanSlot_live {l : LeafRef} {leaf : Subleaf} {a : Addr} (hl : s.leaves l = some leaf)
    (ha : leaf.hier = some a) :
    (cleanSlot env c (some l) s).leaves = Function.update s.leaves l none ∧
      (cleanSlot env c (some l) s).persistDeleted = s.persistDeleted ++ [(c, leaf.topicFilter)] := by
  obtain ⟨h₁, h₂⟩ := unlinkOwn_keeps env c a leaf.shared
    { s with persistDeleted := s.persistDeleted ++ [(c, leaf.topicFilter)] }
  simp only [cleanSlot, hl, ha]
  rw [pruneEmpty_eq]
  exact ⟨by simp only [Broker.setLeaf, h₁], h₂⟩

theorem persistDeleted_foldl : ∀ (rest : List (Option LeafRef)) (s : Broker),
    (∀ l ∈ rest.filterMap id, ∃ leaf, s.leaves l = some leaf ∧ leaf.hier.isSome) →
    (rest.filterMap id).Nodup →
    ∃ E, (rest.foldl (fun s slot => cleanSlot env c slot s) s).persistDeleted =
        s.persistDeleted ++ E ∧
      List.Forall₂ (fun l e => ∃ leaf, s.leaves l = some leaf ∧ e = (c, leaf.topicFilter))
        (rest.filterMap id) E
  | [], s, _, _ => ⟨[], by simp, .nil⟩
  | none :: rest, s, hlive, hnd => persistDeleted_foldl rest s hlive hnd
  | some l :: rest, s, hlive, hnd => by
    have hnd : l ∉ rest.filterMap id ∧ (rest.filterMap id).Nodup := List.nodup_cons.mp hnd
    obtain ⟨leaf, hl, ha⟩ := hlive l (List.mem_cons_self l _)
    have hrest : ∀ m ∈ rest.filterMap id, ∃ leaf, s.leaves m = some leaf ∧ leaf.hier.isSome :=
      fun m hm => hlive m (List.mem_cons_of_mem l hm)
    obtain ⟨a, ha⟩ := Option.isSome_iff_exists.mp ha
    obtain ⟨e₁, e₂⟩ := cleanSlot_live env c hl ha
    have hkeep : ∀ m, m ≠ l → (cleanSlot env c (some l) s).leaves m = s.leaves m := fun m hm => by
      rw [e₁, Function.update_noteq hm]
    obtain ⟨E, hE, hF⟩ := persistDeleted_foldl rest (cleanSlot env c (some l) s)
      (fun m hm => by
        rw [hkeep m fun e => hnd.1 (e ▸ hm)]
        exact hrest m hm)
      hnd.2
    refine ⟨(c, leaf.topicFilter) :: E, by rw [List.foldl_cons, hE, e₂, List.append_assoc]; rfl,
      .cons ⟨leaf, hl, rfl⟩ (hF.imp fun m e ⟨leaf', h', he⟩ => ⟨leaf', ?_, he⟩)⟩
    by_cases hm : m = l
    · rw [hm, e₁, Function.update_same] at h'
      cases h'
    · rwa [hkeep m hm] at h'

/-- In every state of the invariant, a session cleanup reports to the persistence plugin one
delete for each leaf of the client, naming the client and the leaf's filter text, in the
order of the client's array, and nothing else. -/
theorem subCleanSession_persist (hs : Inv env s) :
    (held (s.contexts c)).Nodup ∧
      (∀ l, l ∈ held (s.contexts c) ↔ ∃ leaf, s.leaves l = some leaf ∧ leaf.context = c) ∧
      ∃ E, (subCleanSession env c s).2.persistDeleted = s.persistDeleted ++ E ∧
        List.Forall₂ (fun l e => ∃ leaf, s.leaves l = some leaf ∧ e = (c, leaf.topicFilter))
          (held (s.contexts c)) E := by
  have hlive : ∀ l ∈ (s.contexts c).subs.filterMap id,
      ∃ leaf, s.leaves l = some leaf ∧ leaf.hier.isSome := fun l hl => by
    obtain ⟨leaf, hl', -⟩ := ((hs.slots c).mem l).mp hl
    exact ⟨leaf, hl', hs.lists.hosted l leaf hl'⟩
  obtain ⟨E, hE, hF⟩ := persistDeleted_foldl env c _ s hlive (hs.slots c).nodup
  exact ⟨(hs.slots c).nodup, (hs.slots c).mem, E, hE, hF⟩

theorem subCleanSession_persist_after_subscribe :
    let s := (subAdd (plainEnv false) 1 ⟨"a", 0, 0⟩ ["", "a"] none openedBroker).2
    Inv (plainEnv false) s ∧ (held (s.contexts 1)).Nodup ∧
      (∀ l, l ∈ held (s.contexts 1) ↔ ∃ leaf, s.leaves l = some leaf ∧ leaf.context = 1) ∧
      ∃ E, (subCleanSession (plainEnv false) 1 s).2.persistDeleted = s.persistDeleted ++ E ∧
        List.Forall₂ (fun l e => ∃ leaf, s.leaves l = some leaf ∧ e = (1, leaf.topicFilter))
          (held (s.contexts 1)) E :=
  ⟨inv_subAdd (Inv.initial initial_openedBroker) 1 _ _ none,
    subCleanSession_persist (plainEnv false) 1
      (inv_subAdd (Inv.initial initial_openedBroker) 1 ⟨"a", 0, 0⟩ ["", "a"] none)⟩

end MosquittoSubs.Persist
