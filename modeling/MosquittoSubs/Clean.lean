import MosquittoSubs.Subscribe

set_option autoImplicit false

/-!
# Session cleanup

`tmp_remove_subs` and `sub__clean_session`, which walk the client's `subs` array and the
leaves' back pointers instead of the filters.
-/

namespace MosquittoSubs.Clean
open Model SysTree Subscribe

/-- Whether a node has a parent: `hier->parent`. -/
def hasParent : Addr → Bool
  | _ :: _ :: _ => true
  | _ => false

/-- `tmp_remove_subs`: delete the node `a` when it has no children and no leaves, and return
its parent when that parent is left empty and is not a root. -/
def tmpRemoveSubs (a : Addr) (s : Broker) : Option Addr × Broker :=
  match a with
  | k :: p@(_ :: _) =>
    match s.hier a with
    | some _ =>
      if s.children a ≠ [] ∨ s.subs (.normal a) ≠ [] then (none, s)
      else
        let s := (s.modifyHier p fun m => { m with children := m.children.erase k }).setHier a none
        match s.hier p with
        | some _ =>
          if s.subs (.normal p) = [] ∧ s.children p = [] ∧ s.groups p = [] ∧ hasParent p then
            (some p, s)
          else (none, s)
        | none => (none, s)
    | none => (none, s)
  | _ => (none, s)

/-- `do{ hier = tmp_remove_subs(hier); }while(hier);`. `tmp_remove_subs` only ever returns
the parent, so the loop climbs the address. -/
def removeUp : Addr → Broker → Broker
  | [], s => s
  | k :: p, s =>
    match tmpRemoveSubs (k :: p) s with
    | (some _, s) => removeUp p s
    | (none, s) => s

/-- The `if(context->subs[i]->shared) ... else ...` block of `sub__clean_session`: the first
leaf of the client in the list of the slot's leaf is unlinked and counted down. -/
def unlinkOwn (env : Env) (context : ClientRef) (a : Addr) (shared : Option String)
    (s : Broker) : Broker :=
  match shared with
  | some g =>
    match (s.subs (.shared a g)).find? (s.leafOf context) with
    | some m => subRemoveSharedLeaf a g m (if env.withSysTree then
        { s with sharedSubscriptionCount := s.sharedSubscriptionCount - 1 } else s)
    | none => s
  | none =>
    match (s.subs (.normal a)).find? (s.leafOf context) with
    | some m =>
      let s := if env.withSysTree then
          { s with subscriptionCount := s.subscriptionCount - 1 } else s
      let s := s.setSubs (.normal a) ((s.subs (.normal a)).erase m)
      if env.withSysTree then (subUpdateSubscribedTopics env a s).2 else s
    | none => s

/-- The `do{ hier = tmp_remove_subs(hier); }while(hier);` run when the node `a` is left with
no leaves, groups or children and has a parent. -/
def pruneEmpty (a : Addr) (s : Broker) : Broker :=
  match s.hier a with
  | some _ =>
    if s.subs (.normal a) = [] ∧ s.children a = [] ∧ s.groups a = [] ∧ hasParent a then
      removeUp a s
    else s
  | none => s

/-- One pass of the `for` loop of `sub__clean_session`, on the slot `slot`. -/
def cleanSlot (env : Env) (context : ClientRef) (slot : Option LeafRef) (s : Broker) : Broker :=
  match slot with
  | none => s
  | some l =>
    match s.leaves l with
    | none => s
    | some leaf =>
      match leaf.hier with
      | none => s
      | some a =>
        let s := { s with persistDeleted := s.persistDeleted ++ [(context, leaf.topicFilter)] }
        pruneEmpty a ((unlinkOwn env context a leaf.shared s).setLeaf l none)

def subCleanSession (env : Env) (context : ClientRef) (s : Broker) : Int × Broker :=
  let s' := (s.contexts context).subs.foldl (fun s slot => cleanSlot env context slot s) s
  (MosqErr.success, s'.setContext context ⟨[], 0⟩)

end MosquittoSubs.Clean
