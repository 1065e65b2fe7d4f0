import MosquittoSubs.Subscribe

set_option autoImplicit false

/-!
# Unsubscribing

`sub__remove` and the functions it calls. `reason` is the caller's `uint8_t`, passed in
and returned.
-/

namespace MosquittoSubs.Unsubscribe
open Model SysTree Subscribe

/-- The first slot holding the leaf, cleared; `none` when no slot holds it. -/
def freeSlot (l : LeafRef) : List (Option LeafRef) → Option (List (Option LeafRef))
  | [] => none
  | x :: xs => if x = some l then some (none :: xs) else (freeSlot l xs).map (x :: ·)

theorem freeSlot_filterMap {l : LeafRef} :
    ∀ {xs ys : List (Option LeafRef)}, freeSlot l xs = some ys →
      ys.filterMap id = (xs.filterMap id).erase l
  | [], _, h => by simp [freeSlot] at h
  | x :: xs, ys, h => by
    unfold freeSlot at h
    split_ifs at h with hx
    · cases h
      subst hx
      simp
    · obtain ⟨zs, hz, rfl⟩ := Option.map_eq_some'.mp h
      cases x with
      | none => simpa using freeSlot_filterMap hz
      | some x =>
        have hxl : x ≠ l := fun e => hx (e ▸ rfl)
        simp [freeSlot_filterMap hz, List.erase_cons, hxl]

theorem freeSlot_isSome {l : LeafRef} :
    ∀ {xs : List (Option LeafRef)}, (freeSlot l xs).isSome ↔ some l ∈ xs
  | [] => by simp [freeSlot]
  | x :: xs => by
    unfold freeSlot
    split_ifs with hx
    · simp [hx]
    · simp [freeSlot_isSome, Ne.symm hx]

/-- The index update that `sub__remove_normal` and `sub__remove_shared` share: `subs_count`
drops, and `mosquitto__FREE` frees the leaf and clears its slot. -/
def removeFromIndex (context : ClientRef) (l : LeafRef) (s : Broker) : Broker :=
  let ctx := s.contexts context
  match freeSlot l ctx.subs with
  | some subs => (s.setContext context ⟨subs, ctx.subsCount - 1⟩).setLeaf l none
  | none => s

def subRemoveNormal (env : Env) (context : ClientRef) (a : Addr) (reason : UInt8) (s : Broker) :
    Int × UInt8 × Broker :=
  match (s.subs (.normal a)).find? (s.leafOf context) with
  | none => (MosqErr.noSubscribers, reason, s)
  | some l =>
    let s := if env.withSysTree then { s with subscriptionCount := s.subscriptionCount - 1 } else s
    let s := removeFromIndex context l (s.setSubs (.normal a) ((s.subs (.normal a)).erase l))
    (MosqErr.success, 0, if env.withSysTree then (subUpdateSubscribedTopics env a s).2 else s)

def subRemoveShared (env : Env) (context : ClientRef) (a : Addr) (reason : UInt8)
    (sharename : String) (s : Broker) : Int × UInt8 × Broker :=
  match (s.subs (.shared a sharename)).find? (s.leafOf context) with
  | none => (MosqErr.noSubscribers, reason, s)
  | some l =>
    let s := if env.withSysTree then
        { s with sharedSubscriptionCount := s.sharedSubscriptionCount - 1 } else s
    let s := removeFromIndex context l
      (s.setSubs (.shared a sharename) ((s.subs (.shared a sharename)).erase l))
    (MosqErr.success, 0, if s.subs (.shared a sharename) = [] then
      deleteShared a sharename s else s)

/-- The pruning step of `sub__remove_recurse`: the child `t` of `a` is deleted when it has no
children, leaves or groups left. -/
def pruneChild (a : Addr) (t : String) (s : Broker) : Broker :=
  match s.hier (t :: a) with
  | some _ =>
    if s.children (t :: a) = [] ∧ s.subs (.normal (t :: a)) = [] ∧ s.groups (t :: a) = [] then
      (s.modifyHier a fun n => { n with children := n.children.erase t }).setHier (t :: a) none
    else s
  | none => s

def subRemoveRecurse (env : Env) (context : ClientRef) (sharename : Option String) :
    Addr → List String → UInt8 → Broker → Int × UInt8 × Broker
  | a, [], reason, s =>
    match sharename with
    | some g => subRemoveShared env context a reason g s
    | none => subRemoveNormal env context a reason s
  | a, t :: ts, reason, s =>
    match s.hier (t :: a) with
    | none => (MosqErr.success, reason, s)
    | some _ =>
      let r := subRemoveRecurse env context sharename (t :: a) ts reason s
      (MosqErr.success, r.2.1, pruneChild a t r.2.2)

/-- `sub__remove` on the tokens and share name of the filter; an empty token list stands for
a filter `sub__topic_tokenise` rejects with `MOSQ_ERR_INVAL`. -/
def subRemove (env : Env) (context : ClientRef) (topics : List String)
    (sharename : Option String) (reason : UInt8) (s : Broker) : Int × UInt8 × Broker :=
  match topics with
  | [] => (MosqErr.inval, reason, s)
  | t0 :: _ =>
    match s.hier [t0] with
    | some _ => subRemoveRecurse env context sharename [t0] topics mqttRcNoSubscriptionExisted s
    | none => (MosqErr.success, reason, s)

end MosquittoSubs.Unsubscribe
