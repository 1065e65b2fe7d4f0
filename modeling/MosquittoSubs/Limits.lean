import MosquittoSubs.Rotation

set_option autoImplicit false

/-!
# Every key fits its length field

A node of the trie keeps the length of its key in the `uint16_t` field `topic_len`, which
`sub__add_hier_entry` is handed as `(uint16_t)topiclen`. `sub__add` and `sub__add_context`
make that call only for a level they have already compared against `UINT16_MAX`, and reject
a longer one with `MOSQ_ERR_INVAL` before any node is made for it; no other call makes a
node. So from a state whose keys all fit, no run of calls makes a node whose length the
cast would cut, and the whole strings this model uses as keys are the keys the hash tables
compare.
-/

namespace MosquittoSubs.Limits
open Model Publish Subscribe Run Frame Invariant Preservation UnsubscribeSpec CleanSpec
  Publication Rotation

variable {env : Env} {s : Broker}

/-- Every key on the address of every node fits in `uint16_t`. -/
def KeysFit (s : Broker) : Prop :=
  ∀ a, (s.hier a).isSome → ∀ k ∈ a, ¬ k.length > uint16Max

theorem KeysFit.mono {t : Broker} (hk : KeysFit s)
    (h : ∀ a, (t.hier a).isSome → (s.hier a).isSome) : KeysFit t :=
  fun a ha => hk a (h a ha)

theorem keysFit_emptyBroker : KeysFit emptyBroker :=
  fun _ h => Bool.noConfusion h

theorem keysFit_subAddHierEntry (hk : KeysFit s) {p : Option Addr} {t : String}
    (hp : ∀ k ∈ p.getD [], ¬ k.length > uint16Max) (ht : ¬ t.length > uint16Max) :
    KeysFit (subAddHierEntry env p t s).2 := fun y hy k hky => by
  rcases isSome_subAddHierEntry rfl hy with h | rfl
  · exact hk y h k hky
  · rcases List.mem_cons.mp hky with rfl | h
    · exact ht
    · exact hp k h

theorem keysFit_addContextWalk (ts : List String) :
    ∀ {a : Addr} {s : Broker}, Inv env s → KeysFit s → (s.hier a).isSome →
      KeysFit (walkEnd (addContextWalk env a ts s)) := by
  induction ts with
  | nil => exact fun _ hk _ => hk
  | cons t ts ih =>
    intro a s hs hk ha
    unfold addContextWalk
    split_ifs with hlen
    · exact hk
    split
    · rename_i n hn
      exact ih hs hk (by simp [hn])
    · rename_i hn
      obtain ⟨h₁, h₂⟩ := inv_subAddHierEntry hs ha hn
      have hk₁ : KeysFit (subAddHierEntry env (some a) t s).2 :=
        keysFit_subAddHierEntry hk (hk a ha) hlen
      split
      · rename_i b s₁ heq
        rw [heq] at h₁ h₂ hk₁
        obtain ⟨rfl, hb⟩ := h₂ b rfl
        exact ih h₁ hk₁ hb
      · rename_i s₁ heq
        rwa [heq] at hk₁

theorem keysFit_subAddContext (hs : Inv env s) (hk : KeysFit s) (c : ClientRef)
    (sub : Subscription) {a : Addr} (ha : (s.hier a).isSome) (ts : List String)
    (g : Option String) : KeysFit (subAddContext env c sub a ts g s).2 := by
  have hw := keysFit_addContextWalk ts hs hk ha
  have hiw := (inv_addContextWalk ts hs ha).1
  unfold subAddContext
  split
  · rename_i r heq
    rwa [heq] at hw
  · rename_i b s₁ heq
    rw [heq] at hw hiw
    split_ifs
    · cases g with
      | some g => exact hw.mono fun y => (isSome_subAddShared hiw c sub b g y).mp
      | none =>
        refine hw.mono fun y hy => ?_
        simpa only [subAddNormal_hier (s := s₁) hiw.lists c sub b] using hy
    · exact hw

theorem keysFit_subAdd (hs : Inv env s) (hk : KeysFit s) (c : ClientRef) (sub : Subscription)
    (ts : List String) (g : Option String) : KeysFit (subAdd env c sub ts g s).2 := by
  unfold subAdd
  split
  · exact hk
  rename_i t0 rest
  split_ifs with hlen
  · exact hk
  split
  · rename_i n hn
    exact keysFit_subAddContext hs hk c sub (by simp [hn]) _ g
  · rename_i hn
    obtain ⟨h₁, h₂⟩ := inv_subAddHierEntry_root hs hn
    have hk₁ : KeysFit (subAddHierEntry env none t0 s).2 :=
      keysFit_subAddHierEntry hk (by simp) hlen
    split
    · rename_i a s₁ heq
      rw [heq] at h₁ h₂ hk₁
      obtain ⟨rfl, ha⟩ := h₂ a rfl
      exact keysFit_subAddContext h₁ hk₁ c sub ha _ g
    · rename_i s₁ heq
      rwa [heq] at hk₁

theorem keysFit_run (hs : Inv env s) (hk : KeysFit s) (op : Op) : KeysFit (op.run env s).2 := by
  cases op with
  | subAdd c sub ts g => exact keysFit_subAdd hs hk c sub ts g
  | subRemove c ts g r => exact hk.mono (subRemove_nodes hs c ts g r).1
  | subCleanSession c => exact hk.mono (cleaned_subCleanSession hs c).kept
  | subMessagesQueue src t ts q r m =>
    exact hk.mono fun a (h : ((subMessagesQueue env src t ts q r m s).2.hier a).isSome) => by
      rwa [(subMessagesQueue_rot env t q r m src ts s).hier] at h

/-- From a state of the invariant whose keys all fit in `uint16_t`, every run of calls, in
any order and whatever they return, reaches only states whose keys all fit. -/
theorem runOps_keysFit (hs : Inv env s) (hk : KeysFit s) (ops : List Op) :
    KeysFit (runOps env ops s) := by
  induction ops generalizing s with
  | nil => exact hk
  | cons op ops ih => exact ih (inv_run hs op) (keysFit_run hs hk op)

theorem runOps_keysFit_from_empty :
    let ops := [Op.subAdd 1 ⟨"a/b", 0, 0⟩ ["", "a", "b"] none,
      .subAdd 2 ⟨"$share/g/a/c", 0, 0⟩ ["", "a", "c"] (some "g"), .subCleanSession 1]
    Inv (plainEnv false) emptyBroker ∧ KeysFit emptyBroker ∧
      KeysFit (runOps (plainEnv false) ops emptyBroker) :=
  ⟨Inv.initial initial_emptyBroker, keysFit_emptyBroker,
    runOps_keysFit (Inv.initial initial_emptyBroker) keysFit_emptyBroker _⟩

end MosquittoSubs.Limits
