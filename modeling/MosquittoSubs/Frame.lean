import MosquittoSubs.SysTree

set_option autoImplicit false

/-!
# What a publish leaves alone

A publish, and so also the `$SYS` update that publishes from inside a subscribe or an
unsubscribe, changes no node, no leaf and no index: it only rotates shared groups and
draws packet identifiers. `Rot` is that relation between states.
-/

namespace MosquittoSubs.Frame
open Model Publish SysTree

/-- `s'` holds the subscriptions of `s`, with each shared group's members possibly rotated. -/
structure Rot (s s' : Broker) : Prop where
  hier : s'.hier = s.hier
  normal : ∀ a, s'.subs (.normal a) = s.subs (.normal a)
  shared : ∀ a g, s'.subs (.shared a g) ~r s.subs (.shared a g)
  leaves : s'.leaves = s.leaves
  contexts : s'.contexts = s.contexts
  subscriptionCount : s'.subscriptionCount = s.subscriptionCount
  sharedSubscriptionCount : s'.sharedSubscriptionCount = s.sharedSubscriptionCount
  allocs : s.allocs ≤ s'.allocs
  persistDeleted : s'.persistDeleted = s.persistDeleted

namespace Rot

@[refl] theorem refl (s : Broker) : Rot s s :=
  ⟨rfl, fun _ => rfl, fun _ _ => List.IsRotated.refl _, rfl, rfl, rfl, rfl, le_rfl, rfl⟩

@[trans] theorem trans {s t u : Broker} (h₁ : Rot s t) (h₂ : Rot t u) : Rot s u :=
  ⟨h₂.hier.trans h₁.hier, fun a => (h₂.normal a).trans (h₁.normal a),
    fun a g => (h₂.shared a g).trans (h₁.shared a g), h₂.leaves.trans h₁.leaves,
    h₂.contexts.trans h₁.contexts, h₂.subscriptionCount.trans h₁.subscriptionCount,
    h₂.sharedSubscriptionCount.trans h₁.sharedSubscriptionCount, h₁.allocs.trans h₂.allocs,
    h₂.persistDeleted.trans h₁.persistDeleted⟩

theorem subs_perm {s s' : Broker} (h : Rot s s') (x : Host) : (s'.subs x).Perm (s.subs x) := by
  cases x with
  | normal a => rw [h.normal]
  | shared a g => exact (h.shared a g).perm

theorem mem_subs {s s' : Broker} (h : Rot s s') (x : Host) (l : LeafRef) :
    l ∈ s'.subs x ↔ l ∈ s.subs x :=
  (h.subs_perm x).mem_iff

theorem bump (s : Broker) : Rot s s.bump :=
  ⟨rfl, fun _ => rfl, fun _ _ => List.IsRotated.refl _, rfl, rfl, rfl, rfl, by simp, rfl⟩

theorem setLeaf {s s' : Broker} (h : Rot s s') (l : LeafRef) (x : Option Subleaf) :
    Rot (s.setLeaf l x) (s'.setLeaf l x) :=
  ⟨h.hier, h.normal, h.shared, by simp [h.leaves], h.contexts, h.subscriptionCount,
    h.sharedSubscriptionCount, h.allocs, h.persistDeleted⟩

theorem children {s s' : Broker} (h : Rot s s') (a : Addr) : s'.children a = s.children a := by
  simp [Broker.children, h.hier]

theorem groups {s s' : Broker} (h : Rot s s') (a : Addr) : s'.groups a = s.groups a := by
  simp [Broker.groups, h.hier]

end Rot

section Publish

variable (env : Env) (topic : String) (qos : UInt8) (retain : Bool) (stored : BaseMsg)

theorem rot_of_logs (s : Broker) (sends : List LeafRef) (outgoing : List Outgoing)
    (lastMid : ClientRef → UInt16) :
    Rot s { s with sends := sends, outgoing := outgoing, lastMid := lastMid } :=
  ⟨rfl, fun _ => rfl, fun _ _ => List.IsRotated.refl _, rfl, rfl, rfl, rfl, le_rfl, rfl⟩

theorem queued_logs (s : Broker) (c : ClientRef) (b : Prop) [Decidable b] (out : Outgoing) :
    ∃ outgoing lastMid,
      { (if b then midGenerate c s else (0, s)).2 with
          outgoing := (if b then midGenerate c s else (0, s)).2.outgoing ++ [out] } =
      { s with outgoing := outgoing, lastMid := lastMid } := by
  split <;> exact ⟨_, _, rfl⟩

theorem subsSend_logs (l : LeafRef) (s : Broker) :
    ∃ outgoing lastMid, (subsSend env l topic qos retain stored s).2 =
      { s with sends := s.sends ++ [l], outgoing := outgoing, lastMid := lastMid } := by
  unfold subsSend
  dsimp only
  split
  · exact ⟨_, _, rfl⟩
  · rename_i leaf _
    by_cases hdenied : env.aclCheck leaf.context topic stored = MosqErr.aclDenied
    · rw [if_pos hdenied]
      exact ⟨_, _, rfl⟩
    by_cases hallowed : env.aclCheck leaf.context topic stored = MosqErr.success
    · rw [if_neg hdenied, if_pos hallowed]
      exact queued_logs _ _ _ _
    · rw [if_neg hdenied, if_neg hallowed]
      exact ⟨_, _, rfl⟩

theorem subsSend_rot (l : LeafRef) (s : Broker) :
    Rot s (subsSend env l topic qos retain stored s).2 := by
  obtain ⟨_, _, h⟩ := subsSend_logs env topic qos retain stored l s
  rw [h]
  exact rot_of_logs _ _ _ _

theorem subsSharedProcess_rot (a : Addr) (gs : List String) (rc : Int) (s : Broker) :
    Rot s (subsSharedProcess env topic qos retain stored a gs rc s).2 := by
  induction gs generalizing rc s with
  | nil => exact Rot.refl s
  | cons g gs ih =>
    unfold subsSharedProcess
    split
    · exact ih rc s
    · rename_i l rest hl
      refine Rot.trans ?_ (ih _ _)
      have hs := subsSend_rot env topic qos retain stored l s
      refine ⟨hs.hier, fun b => ?_, fun b g' => ?_, hs.leaves, hs.contexts,
        hs.subscriptionCount, hs.sharedSubscriptionCount, hs.allocs, hs.persistDeleted⟩
      · simp only [Broker.setSubs]
        rw [Function.update_noteq (fun h => by cases h), hs.normal]
      by_cases hb : Host.shared b g' = .shared a g
      · cases hb
        simp only [Broker.setSubs]
        rw [Function.update_same, hl]
        exact List.isRotated_concat l rest
      · simp only [Broker.setSubs]
        rw [Function.update_noteq hb]
        exact hs.shared b g'

theorem sendLeaves_rot (src : String) (ls : List LeafRef) (rc : Int) (s : Broker) :
    Rot s (sendLeaves env topic qos retain stored src ls rc s).2 := by
  induction ls generalizing rc s with
  | nil => exact Rot.refl s
  | cons l ls ih =>
    unfold sendLeaves
    split
    · exact ih rc s
    · exact (subsSend_rot env topic qos retain stored l s).trans (ih _ _)

theorem subsProcess_rot (src : Option String) (a : Addr) (s : Broker) :
    Rot s (subsProcess env topic qos retain stored src a s).2 := by
  unfold subsProcess
  have h₁ := subsSharedProcess_rot env topic qos retain stored a (s.groups a) 0 s
  cases src with
  | none => exact h₁
  | some src => exact h₁.trans (sendLeaves_rot env topic qos retain stored src _ _ _)

@[simp] theorem absorb_broker (found : Bool) (r : Int × Broker) :
    (Walk.absorb found r).broker = r.2 := by
  obtain ⟨rc, s⟩ := r
  unfold Walk.absorb
  dsimp only
  split_ifs <;> rfl

theorem bind_rot {s : Broker} {w : Walk} {k : Bool → Broker → Walk} (hw : Rot s w.broker)
    (hk : ∀ f t, Rot t (k f t).broker) : Rot s (w.bind k).broker := by
  cases w with
  | going f t => exact hw.trans (hk f t)
  | returned rc t => exact hw

theorem finish_rot {s : Broker} {w : Walk} (hw : Rot s w.broker) : Rot s w.finish.2 := by
  cases w <;> exact hw

variable {process search : Addr → Broker → Int × Broker}

theorem searchBranch_rot (hp : ∀ b t, Rot t (process b t).2) (hs : ∀ b t, Rot t (search b t).2)
    (last : Bool) (b : Addr) (found : Bool) (s : Broker) :
    Rot s (searchBranch process search last b found s).broker := by
  unfold searchBranch
  split
  · exact Rot.refl s
  · refine bind_rot (by simpa using hs b s) fun f t => ?_
    split
    · simpa using hp b t
    · exact Rot.refl t

theorem searchHash_rot (hp : ∀ b t, Rot t (process b t).2) (a : Addr) (found : Bool)
    (s : Broker) : Rot s (searchHash process a found s).broker := by
  unfold searchHash
  split
  · split
    · simpa using hp _ s
    · exact Rot.refl s
  · exact Rot.refl s

theorem subSearch_rot (src : Option String) (a : Addr) (ts : List String) (s : Broker) :
    Rot s (subSearch env src topic qos retain stored a ts s).2 := by
  have hp := subsProcess_rot env topic qos retain stored src
  induction ts generalizing a s with
  | nil => exact finish_rot (searchHash_rot hp a false s)
  | cons t rest ih =>
    rw [subSearch]
    exact finish_rot (bind_rot (searchBranch_rot hp (fun b u => ih b u) _ _ _ s) fun f u =>
      bind_rot (searchBranch_rot hp (fun b u => ih b u) _ _ _ u) fun f' v =>
        searchHash_rot hp a f' v)

theorem subMessagesQueue_rot (src : Option String) (ts : List String) (s : Broker) :
    Rot s (subMessagesQueue env src topic ts qos retain stored s).2 := by
  cases ts with
  | nil => exact Rot.refl s
  | cons t0 rest =>
    have h : Rot s (match s.hier [t0] with
        | some _ => subSearch env src topic qos retain stored [t0] (t0 :: rest) s
        | none => (MosqErr.success, s)).2 := by
      split
      · exact subSearch_rot env topic qos retain stored src _ _ s
      · exact Rot.refl s
    simp only [subMessagesQueue]
    split_ifs <;> exact h

end Publish

theorem subBuildFullTopic_rot (env : Env) (a : Addr) (len : Nat) (s : Broker) :
    Rot s (subBuildFullTopic env a len s).2 := by
  induction a generalizing len s with
  | nil => exact Rot.refl s
  | cons t p ih =>
    unfold subBuildFullTopic
    dsimp only
    by_cases hc : climbs p
    · rw [if_pos hc]
      have h := ih (len + (t.length + 1)) s
      split <;> rename_i heq <;> simpa [heq] using h
    · rw [if_neg hc]
      split_ifs
      · exact (Rot.bump s).trans (Rot.bump _)
      · exact (Rot.bump s).trans (Rot.bump _)
      · exact Rot.bump s

theorem subUpdateSubscribedTopics_rot (env : Env) (a : Addr) (s : Broker) :
    Rot s (subUpdateSubscribedTopics env a s).2 := by
  unfold subUpdateSubscribedTopics
  have h := subBuildFullTopic_rot env a 0 s
  split
  · simpa [*] using h
  · rename_i tb t ht
    rw [ht] at h
    exact h.trans (subMessagesQueue_rot env _ _ _ _ _ _ _)

end MosquittoSubs.Frame
