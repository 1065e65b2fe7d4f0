import MosquittoSubs.Publication

set_option autoImplicit false

/-!
# What a call leaves of one list

Two frame results about one list `x` of the trie, for the rotation of shared groups. A
publish that processes no node of `x` leaves `x` as it was and hands none of its leaves to
`subs__send`, whatever its topic: it processes only the nodes of `searchNodes`, and each leaf
lies in one list. Apart from their `$SYS` updates, a subscribe, an unsubscribe or a session
cleanup publishes nothing, and each list it leaves is the old one with leaves taken out and
leaves allocated during the call appended. The `$SYS` updates of the `WITH_SYS_TREE` build
publish topics whose first level is `$SYS`, so they process only nodes below the root
`$SYS`. So a list of a node below another root whose members a call keeps is the list it
was, and the call hands none of them to `subs__send`.
-/

namespace MosquittoSubs.Untouched
open Model Publish SysTree Subscribe Unsubscribe Clean Run Frame Invariant Preservation Shape
  SubscribeSpec UnsubscribeSpec Matching Delivery Publication

/-! ## Publishes elsewhere -/

/-- `t` is `s` with the list at `x` as it was and `subs__send` called only on leaves not in
it; the other groups may have turned. -/
structure Apart (x : Host) (s t : Broker) : Prop where
  rot : Rot s t
  subs : t.subs x = s.subs x
  sends : ∃ L, t.sends = s.sends ++ L ∧ ∀ l ∈ L, l ∉ s.subs x

/-- No leaf of another list is in the list at `x`. -/
def Separate (x : Host) (s : Broker) : Prop := ∀ y, y ≠ x → ∀ l ∈ s.subs y, l ∉ s.subs x

theorem separate_of_lists {env : Env} {s : Broker} (hs : Lists env s) (x : Host) :
    Separate x s :=
  fun _ hy _ hl hx => hy (host_eq_of_mem hs hl hx)

theorem lt_allocs_of_mem {env : Env} {s : Broker} (hs : Lists env s) {x : Host} {l : LeafRef}
    (hl : l ∈ s.subs x) : l < s.allocs :=
  Nat.lt_of_not_le fun hle => hs.fresh_not_mem hle x hl

namespace Apart

variable {x : Host} {s t u : Broker}

theorem refl (x : Host) (s : Broker) : Apart x s s :=
  ⟨Rot.refl s, rfl, [], by simp, by simp⟩

theorem trans (h₁ : Apart x s t) (h₂ : Apart x t u) : Apart x s u := by
  obtain ⟨L₁, e₁, h₁'⟩ := h₁.sends
  obtain ⟨L₂, e₂, h₂'⟩ := h₂.sends
  refine ⟨h₁.rot.trans h₂.rot, h₂.subs.trans h₁.subs, L₁ ++ L₂, by rw [e₂, e₁, List.append_assoc],
    fun l hl => ?_⟩
  rcases List.mem_append.mp hl with hl | hl
  · exact h₁' l hl
  · exact h₁.subs ▸ h₂' l hl

theorem separate (h : Apart x s t) (hs : Separate x s) : Separate x t := fun y hy l hl => by
  rw [h.subs]
  exact hs y hy l ((h.rot.mem_subs y l).mp hl)

theorem turn {a : Addr} {g : String} {l : LeafRef} {rest : List LeafRef}
    (h : s.subs (.shared a g) = l :: rest) (hx : Host.shared a g ≠ x) :
    Apart x s (s.setSubs (.shared a g) (rest ++ [l])) := by
  refine ⟨⟨rfl, fun b => ?_, fun b g' => ?_, rfl, rfl, rfl, rfl, le_rfl, rfl⟩,
    by simp [Function.update_noteq (Ne.symm hx)], [], by simp, by simp⟩
  · simp [Function.update_noteq]
  · by_cases hb : Host.shared b g' = .shared a g
    · rw [hb]
      simpa [h] using List.isRotated_concat l rest
    · simpa [Function.update_noteq hb] using List.IsRotated.refl (s.subs (.shared b g'))

end Apart

section Loops

variable {env : Env} {topic : String} {qos : UInt8} {retain : Bool} {stored : BaseMsg}
  {x : Host}

theorem subsSend_apart {l : LeafRef} {s : Broker} (hl : l ∉ s.subs x) :
    Apart x s (subsSend env l topic qos retain stored s).2 := by
  have h := @subsSend_sent env topic qos retain stored l s
  exact ⟨subsSend_rot env topic qos retain stored l s, by rw [h.subs], [l], h.sends,
    by simpa using hl⟩

theorem subsSharedProcess_apart {a : Addr} (ha : ∀ g, Host.shared a g ≠ x) :
    ∀ (gs : List String) (rc : Int) (s : Broker), Separate x s →
      Apart x s (subsSharedProcess env topic qos retain stored a gs rc s).2
  | [], _, s, _ => .refl x s
  | g :: gs, rc, s, hs => by
    unfold subsSharedProcess
    split
    · exact subsSharedProcess_apart ha gs rc s hs
    · rename_i l rest hl
      have h₁ := @subsSend_apart env topic qos retain stored x l s
        (hs _ (ha g) l (by simp [hl]))
      have e : (subsSend env l topic qos retain stored s).2.subs (.shared a g) = l :: rest := by
        rw [(@subsSend_sent env topic qos retain stored l s).subs, hl]
      have h₂ := h₁.trans (Apart.turn e (ha g))
      exact h₂.trans (subsSharedProcess_apart ha gs _ _ (h₂.separate hs))

theorem sendLeaves_apart (src : String) :
    ∀ (ls : List LeafRef) (rc : Int) (s : Broker), (∀ l ∈ ls, l ∉ s.subs x) →
      Apart x s (sendLeaves env topic qos retain stored src ls rc s).2
  | [], _, s, _ => .refl x s
  | l :: ls, rc, s, hls => by
    unfold sendLeaves
    split
    · exact sendLeaves_apart src ls rc s fun l' h => hls l' (List.mem_cons_of_mem _ h)
    · have h₁ := @subsSend_apart env topic qos retain stored x l s
        (hls l (List.mem_cons_self _ _))
      exact h₁.trans (sendLeaves_apart src ls _ _ fun l' h => h₁.subs ▸
        hls l' (List.mem_cons_of_mem _ h))

theorem subsProcess_apart (src : Option String) {b : Addr} (hb : b ≠ x.addr) {s : Broker}
    (hs : Separate x s) : Apart x s (subsProcess env topic qos retain stored src b s).2 := by
  have hy : ∀ y : Host, y.addr = b → y ≠ x := fun y hy e => hb (e ▸ hy.symm)
  have h₁ := @subsSharedProcess_apart env topic qos retain stored x b
    (fun g => hy (.shared b g) rfl)
    (s.groups b) 0 s hs
  unfold subsProcess
  cases src with
  | none => exact h₁
  | some src =>
    exact h₁.trans (sendLeaves_apart src _ _ _ fun l hl =>
      h₁.subs ▸ hs _ (hy (.normal b) rfl) l hl)

end Loops

@[simp] theorem finish_snd (w : Walk) : w.finish.2 = w.broker := by
  cases w <;> rfl

theorem bind_apart {x : Host} {s₀ : Broker} {w : Walk} {k : Bool → Broker → Walk}
    (hw : Apart x s₀ w.broker) (hk : ∀ f t, Apart x s₀ t → Apart x s₀ (k f t).broker) :
    Apart x s₀ (w.bind k).broker := by
  cases w with
  | going f t => exact hk f t hw
  | returned rc t => exact hw

section Search

variable {env : Env} {topic : String} {qos : UInt8} {retain : Bool} {stored : BaseMsg}
  (src : Option String) {x : Host} {s₀ : Broker} (hsep : Separate x s₀)
include hsep

theorem searchBranch_apart {c : Addr} {rest : List String} {t : Broker} (found : Bool)
    (ih : (∀ b ∈ searchNodes s₀ c rest, b ≠ x.addr) → ∀ t, Apart x s₀ t →
      Apart x s₀ (subSearch env src topic qos retain stored c rest t).2)
    (ht : Apart x s₀ t) (hc : ∀ b ∈ branchNodes s₀ c rest, b ≠ x.addr) :
    Apart x s₀ (searchBranch (subsProcess env topic qos retain stored src)
      (fun b s => subSearch env src topic qos retain stored b rest s) rest.isEmpty c found
        t).broker := by
  unfold searchBranch
  rw [ht.rot.hier]
  cases hcs : s₀.hier c with
  | none => exact ht
  | some n =>
    have hmem := fun b => @mem_branchNodes s₀ b c rest
    simp only [hcs, Option.isSome_some, true_and] at hmem
    refine bind_apart (by simpa using ih (fun b h => hc b ((hmem b).mpr (.inl h))) t ht)
      fun f u hu => ?_
    split
    · rename_i hr
      simpa using hu.trans (subsProcess_apart src (hc c ((hmem c).mpr
        (.inr ⟨List.isEmpty_iff.mp hr, rfl⟩))) (hu.separate hsep))
    · exact hu

theorem searchHash_apart {a : Addr} {t : Broker} (found : Bool) (ht : Apart x s₀ t)
    (ha : ∀ b ∈ hashNodes s₀ a, b ≠ x.addr) :
    Apart x s₀ (searchHash (subsProcess env topic qos retain stored src) a found t).broker := by
  have hch : t.children ("#" :: a) = s₀.children ("#" :: a) := by
    simp [Broker.children, ht.rot.hier]
  unfold searchHash
  rw [ht.rot.hier, hch]
  split
  · split_ifs with he
    · rename_i hs
      simpa using ht.trans (subsProcess_apart src (ha _ (mem_hashNodes.mpr ⟨rfl, by simp [hs], he⟩))
        (ht.separate hsep))
    · exact ht
  · exact ht

theorem subSearch_apart (ts : List String) :
    ∀ (a : Addr), (∀ b ∈ searchNodes s₀ a ts, b ≠ x.addr) → ∀ t, Apart x s₀ t →
      Apart x s₀ (subSearch env src topic qos retain stored a ts t).2 := by
  induction ts with
  | nil =>
    intro a ha t ht
    simpa [subSearch] using searchHash_apart src hsep false ht ha
  | cons t₁ rest ih =>
    intro a ha t ht
    simp only [searchNodes_cons, List.mem_append] at ha
    rw [subSearch, finish_snd]
    exact bind_apart (searchBranch_apart src hsep false (ih _) ht fun b h => ha b (.inl (.inl h)))
      fun f u hu => bind_apart (searchBranch_apart src hsep f (ih _) hu
        fun b h => ha b (.inl (.inr h))) fun f' v hv => searchHash_apart src hsep f' hv
          fun b h => ha b (.inr h)

theorem subMessagesQueue_apart (T : List String) (hT : x.addr ∉ queueNodes s₀ T) :
    Apart x s₀ (subMessagesQueue env src topic T qos retain stored s₀).2 := by
  cases T with
  | nil => exact .refl x s₀
  | cons t0 rest =>
    have h : Apart x s₀ (match s₀.hier [t0] with
        | some _ => subSearch env src topic qos retain stored [t0] (t0 :: rest) s₀
        | none => (MosqErr.success, s₀)).2 := by
      cases hr : s₀.hier [t0] with
      | none => exact .refl x s₀
      | some n =>
        refine subSearch_apart src hsep _ _ (fun b hb e => hT ?_) s₀ (.refl x s₀)
        simpa [queueNodes, hr, ← e] using hb
    simp only [subMessagesQueue]
    split_ifs <;> exact h

end Search

/-! ## Steps that publish nothing -/

/-- `t` is `s` after calls that send nothing and change each list only by taking leaves out
of it and appending leaves allocated after `s`. -/
structure Grown (s t : Broker) : Prop where
  subs : ∀ x, ∃ N : List LeafRef, (∀ l ∈ N, s.allocs ≤ l) ∧ (t.subs x).Sublist (s.subs x ++ N)
  sends : t.sends = s.sends
  allocs : s.allocs ≤ t.allocs

namespace Grown

variable {s t u : Broker}

theorem refl (s : Broker) : Grown s s :=
  ⟨fun x => ⟨[], by simp, by simp⟩, rfl, le_rfl⟩

theorem trans (h₁ : Grown s t) (h₂ : Grown t u) : Grown s u where
  subs x := by
    obtain ⟨N₁, hN₁, h₁'⟩ := h₁.subs x
    obtain ⟨N₂, hN₂, h₂'⟩ := h₂.subs x
    refine ⟨N₁ ++ N₂, fun l hl => ?_, h₂'.trans ?_⟩
    · rcases List.mem_append.mp hl with hl | hl
      · exact hN₁ l hl
      · exact h₁.allocs.trans (hN₂ l hl)
    · rw [← List.append_assoc]
      exact h₁'.append_right N₂
  sends := h₂.sends.trans h₁.sends
  allocs := h₁.allocs.trans h₂.allocs

theorem update {x : Host} {v : List LeafRef} (h : Grown s t)
    (hu : u.subs = Function.update t.subs x v)
    (hv : ∃ N : List LeafRef, (∀ l ∈ N, t.allocs ≤ l) ∧ v.Sublist (t.subs x ++ N))
    (he : u.sends = t.sends) (ha : t.allocs ≤ u.allocs) : Grown s u := by
  refine h.trans ⟨fun y => ?_, he, ha⟩
  rw [hu]
  by_cases hy : y = x
  · subst hy
    simpa using hv
  · rw [Function.update_noteq hy]
    exact ⟨[], by simp, by simp⟩

theorem keep (h : Grown s t) (hu : u.subs = t.subs) (he : u.sends = t.sends)
    (ha : t.allocs ≤ u.allocs) : Grown s u :=
  h.trans ⟨fun x => ⟨[], by simp, by simp [hu]⟩, he, ha⟩

theorem erase {x : Host} {l : LeafRef} (h : Grown s t)
    (hu : u.subs = Function.update t.subs x ((t.subs x).erase l)) (he : u.sends = t.sends)
    (ha : t.allocs ≤ u.allocs) : Grown s u :=
  h.update hu ⟨[], by simp, by simpa using List.erase_sublist l (t.subs x)⟩ he ha

end Grown

section Calls

variable {env : Env} {s t : Broker}

theorem grown_subAddHierEntry (h : Grown s t) (p : Option Addr) (k : String) :
    Grown s (subAddHierEntry env p k t).2 := by
  unfold subAddHierEntry
  split_ifs
  · cases p <;> exact h.update rfl ⟨[], by simp, List.nil_sublist _⟩ rfl (Nat.le_succ _)
  · exact h.keep rfl rfl (Nat.le_succ _)

theorem grown_walkEnd (ts : List String) :
    ∀ (a : Addr) (t : Broker), Grown s t → Grown s (walkEnd (addContextWalk env a ts t)) := by
  induction ts with
  | nil => exact fun _ _ h => h
  | cons k ts ih =>
    intro a t h
    unfold addContextWalk
    split_ifs
    · exact h
    split
    · exact ih _ t h
    · have h₁ := @grown_subAddHierEntry env s t h (some a) k
      rcases he : subAddHierEntry env (some a) k t with ⟨_ | b, t₁⟩ <;> rw [he] at h₁
      · exact h₁
      · exact ih b t₁ h₁

theorem grown_of_subAddLeaf {c : ClientRef} {sub : Subscription} {x : Host} {r : LeafAdded}
    {u : Broker} (he : subAddLeaf env c sub x t = (r, u)) (h : Grown s t) : Grown s u := by
  rcases subAddLeaf_cases he with ⟨m, -, -, rfl⟩ | ⟨-, -, -, rfl⟩ | ⟨-, -, -, rfl⟩
  · exact h.keep rfl rfl le_rfl
  · exact h.keep rfl rfl (Nat.le_succ _)
  · exact h.update rfl ⟨[t.allocs], by simp, List.Sublist.refl _⟩ rfl (Nat.le_succ _)

theorem grown_of_addToIndex {c : ClientRef} {l : LeafRef} {ok : Bool} {u : Broker}
    (he : addToIndex env c l t = (ok, u)) (h : Grown s t) : Grown s u := by
  rcases addToIndex_cases he with ⟨-, -, -, k, rfl⟩ | ⟨-, -, -, rfl⟩
  · exact h.keep rfl rfl (Nat.le_add_right _ _)
  · exact h.keep rfl rfl (Nat.le_succ _)

theorem grown_deleteShared (h : Grown s t) (a : Addr) (g : String) :
    Grown s (deleteShared a g t) :=
  h.keep rfl rfl le_rfl

theorem grown_subRemoveSharedLeaf (h : Grown s t) (a : Addr) (g : String) (l : LeafRef) :
    Grown s (subRemoveSharedLeaf a g l t) := by
  unfold subRemoveSharedLeaf
  dsimp only
  split_ifs <;> exact h.erase rfl rfl le_rfl

theorem grown_subAddShared (h : Grown s t) (c : ClientRef) (sub : Subscription) (a : Addr)
    (g : String) : Grown s (subAddShared env c sub a g t).2 := by
  unfold subAddShared
  rcases hf : findOrAddShared env a g t with ⟨ok, t₁⟩
  have h₁ : Grown s t₁ := by
    rcases findOrAddShared_cases hf with ⟨-, -, rfl⟩ | ⟨-, -, rfl⟩ | ⟨-, rfl⟩
    · exact h
    · exact h.update rfl ⟨[], by simp, List.nil_sublist _⟩ rfl (Nat.le_succ _)
    · exact h.keep rfl rfl (Nat.le_succ _)
  cases ok
  · exact h₁
  · dsimp only
    rcases hleaf : subAddLeaf env c sub (.shared a g) t₁ with ⟨r, t₂⟩
    have h₂ := grown_of_subAddLeaf hleaf h₁
    rcases r with _ | l | _
    · exact h₂
    · dsimp only
      split
      · rename_i t₃ hidx
        exact (grown_subRemoveSharedLeaf (grown_of_addToIndex hidx (h₂.keep rfl rfl le_rfl))
          a g l).keep rfl rfl le_rfl
      · rename_i t₃ hidx
        have h₃ := grown_of_addToIndex hidx (h₂.keep rfl rfl le_rfl)
        split_ifs
        · exact h₃.keep rfl rfl le_rfl
        · exact h₃
    · dsimp only
      split_ifs
      · exact grown_deleteShared h₂ a g
      · exact h₂

theorem grown_removeFromIndex (h : Grown s t) (c : ClientRef) (l : LeafRef) :
    Grown s (removeFromIndex c l t) := by
  unfold removeFromIndex
  dsimp only
  split
  · exact h.keep rfl rfl le_rfl
  · exact h

theorem grown_subRemoveShared (c : ClientRef) (a : Addr) (reason : UInt8) (g : String)
    (s : Broker) : Grown s (subRemoveShared env c a reason g s).2.2 := by
  unfold subRemoveShared
  split
  · exact .refl s
  · rename_i l _
    dsimp only
    split_ifs <;> first
      | refine grown_deleteShared (grown_removeFromIndex ?_ c l) a g
      | refine grown_removeFromIndex ?_ c l
    all_goals exact (Grown.refl s).erase rfl rfl le_rfl

theorem grown_pruneChild (h : Grown s t) (a : Addr) (k : String) : Grown s (pruneChild a k t) :=
  h.keep (subs_pruneChild a k t) (by rw [pruneChild_eq]) (le_of_eq (by rw [pruneChild_eq]))

theorem grown_setLeaf (h : Grown s t) (l : LeafRef) (x : Option Subleaf) :
    Grown s (t.setLeaf l x) :=
  h.keep rfl rfl le_rfl

theorem grown_pruneEmpty (h : Grown s t) (a : Addr) : Grown s (pruneEmpty a t) :=
  h.keep (by rw [pruneEmpty_eq]) (by rw [pruneEmpty_eq]) (le_of_eq (by rw [pruneEmpty_eq]))

end Calls

/-! ## Calls in either build -/

theorem head_split_sysTopic (r : String) :
    (("$SYS/broker/subscribed_topics" ++ "/" ++ r).split (· == '/')).head? = some "$SYS" := by
  rw [String.split_of_valid]
  have e : ("$SYS/broker/subscribed_topics" ++ "/" ++ r).data =
      ['$', 'S', 'Y', 'S'] ++ '/' :: ("broker/subscribed_topics/".data ++ r.data) := rfl
  rw [e, List.splitOnP_first _ _ (by decide) '/' rfl]
  rfl

theorem getLast_of_mem_queueNodes {s : Broker} {T : List String} {b : Addr}
    (h : b ∈ queueNodes s T) : b.getLast? = T.head? := by
  cases T with
  | nil => simp [queueNodes] at h
  | cons t0 rest =>
    simp only [queueNodes] at h
    split_ifs at h
    · obtain ⟨P, -, rfl⟩ := below_of_mem_searchNodes _ h
      simp
    · simp at h

theorem Separate.of_rot {x : Host} {s t : Broker} (h : Rot s t) (hsep : Separate x t) :
    Separate x s :=
  fun y hy l hl hx => hsep y hy l ((h.mem_subs y l).mpr hl) ((h.mem_subs x l).mpr hx)

theorem Separate.of_subs {x : Host} {s t : Broker} (h : t.subs = s.subs) (hsep : Separate x t) :
    Separate x s :=
  fun y hy l => by simpa only [h] using hsep y hy l

theorem Apart.bump (x : Host) (s : Broker) : Apart x s s.bump :=
  ⟨Rot.bump s, rfl, [], by simp, by simp⟩

theorem apart_subBuildFullTopic (env : Env) (x : Host) (a : Addr) (len : Nat) (s : Broker) :
    Apart x s (subBuildFullTopic env a len s).2 := by
  induction a generalizing len with
  | nil => exact .refl x s
  | cons t p ih =>
    unfold subBuildFullTopic
    dsimp only
    by_cases hc : climbs p
    · rw [if_pos hc]
      have h := ih (len + (t.length + 1))
      split <;> rename_i heq <;> simpa [heq] using h
    · rw [if_neg hc]
      split_ifs
      · exact (Apart.bump x s).trans (.bump x _)
      · exact (Apart.bump x s).trans (.bump x _)
      · exact .bump x s

theorem apart_subUpdateSubscribedTopics {env : Env} {x : Host} (hx : x.addr.getLast? ≠ some "$SYS")
    (a : Addr) {s : Broker} (hsep : Separate x s) :
    Apart x s (subUpdateSubscribedTopics env a s).2 := by
  have h₁ := apart_subBuildFullTopic env x a 0 s
  unfold subUpdateSubscribedTopics
  rcases hb : subBuildFullTopic env a 0 s with ⟨_ | tb, s₁⟩ <;> rw [hb] at h₁
  · exact h₁
  · exact h₁.trans (subMessagesQueue_apart (some "") (h₁.separate hsep) _
      fun hX => hx ((getLast_of_mem_queueNodes hX).trans (head_split_sysTopic _)))

/-- `t` is `s` after steps that change the list at `x` only by taking leaves out of it and
appending leaves allocated after `s`, and that hand to `subs__send` only leaves of it that
they take out. -/
structure Kept (x : Host) (s t : Broker) : Prop where
  subs : ∃ N : List LeafRef, (∀ l ∈ N, s.allocs ≤ l) ∧ (t.subs x).Sublist (s.subs x ++ N)
  sends : ∃ L, t.sends = s.sends ++ L ∧ ∀ l ∈ L, l ∈ s.subs x → l ∉ t.subs x
  allocs : s.allocs ≤ t.allocs

namespace Kept

variable {x : Host} {s t u : Broker}

theorem of_grown (h : Grown s t) : Kept x s t :=
  ⟨h.subs x, ⟨[], by simp [h.sends], by simp⟩, h.allocs⟩

theorem of_apart (h : Apart x s t) : Kept x s t := by
  obtain ⟨L, e, hL⟩ := h.sends
  exact ⟨⟨[], by simp, by simp [h.subs]⟩, ⟨L, e, fun l hl hx => absurd hx (hL l hl)⟩, h.rot.allocs⟩

theorem not_mem (h : Kept x t u) {l : LeafRef} (hl : l < t.allocs) (hn : l ∉ t.subs x) :
    l ∉ u.subs x := fun hu => by
  obtain ⟨N, hN, hsub⟩ := h.subs
  rcases List.mem_append.mp (hsub.subset hu) with h' | h'
  · exact hn h'
  · exact absurd (hN l h') (Nat.not_le.mpr hl)

theorem trans (hal : ∀ l ∈ s.subs x, l < s.allocs) (h₁ : Kept x s t) (h₂ : Kept x t u) :
    Kept x s u where
  subs := by
    obtain ⟨N₁, hN₁, h₁'⟩ := h₁.subs
    obtain ⟨N₂, hN₂, h₂'⟩ := h₂.subs
    refine ⟨N₁ ++ N₂, fun l hl => ?_, h₂'.trans ?_⟩
    · rcases List.mem_append.mp hl with hl | hl
      · exact hN₁ l hl
      · exact h₁.allocs.trans (hN₂ l hl)
    · rw [← List.append_assoc]
      exact h₁'.append_right N₂
  sends := by
    obtain ⟨L₁, e₁, hL₁⟩ := h₁.sends
    obtain ⟨L₂, e₂, hL₂⟩ := h₂.sends
    refine ⟨L₁ ++ L₂, by rw [e₂, e₁, List.append_assoc], fun l hl hs => ?_⟩
    have hlt : l < t.allocs := Nat.lt_of_lt_of_le (hal l hs) h₁.allocs
    rcases List.mem_append.mp hl with hl | hl
    · exact h₂.not_mem hlt (hL₁ l hl hs)
    · by_cases ht : l ∈ t.subs x
      · exact hL₂ l hl ht
      · exact h₂.not_mem hlt ht
  allocs := h₁.allocs.trans h₂.allocs

theorem eq_of_mem {env : Env} (hs : Lists env s) (h : Kept x s t)
    (hm : ∀ l, l ∈ t.subs x ↔ l ∈ s.subs x) :
    t.subs x = s.subs x ∧ (t.sends.drop s.sends.length).filter (· ∈ s.subs x) = [] := by
  obtain ⟨L, e, hL⟩ := h.sends
  refine ⟨?_, ?_⟩
  · obtain ⟨N, hN, hsub⟩ := h.subs
    obtain ⟨r₁, r₂, he, h₁, h₂⟩ := List.sublist_append_iff.mp hsub
    have hr₂ : r₂ = [] := List.eq_nil_iff_forall_not_mem.mpr fun l hl =>
      hs.fresh_not_mem (hN l (h₂.subset hl)) x ((hm l).mp (by rw [he]; exact List.mem_append_right r₁ hl))
    subst hr₂
    rw [List.append_nil] at he
    subst he
    exact h₁.eq_of_length_le
      (List.subperm_of_subset (hs.nodup x) fun l hl => (hm l).mpr hl).length_le
  · rw [e, List.drop_left, List.filter_eq_nil_iff]
    exact fun l hl hx => hL l hl (of_decide_eq_true hx) ((hm l).mpr (of_decide_eq_true hx))

end Kept

section Sys

variable {env : Env} {x : Host} {s : Broker} (hx : x.addr.getLast? ≠ some "$SYS")
  (hal : ∀ l ∈ s.subs x, l < s.allocs)
include hx hal

theorem kept_subAddNormal {t : Broker} (h : Grown s t) (c : ClientRef) (sub : Subscription)
    (a : Addr) : Separate x (subAddNormal env c sub a t).2 → Kept x s (subAddNormal env c sub a t).2 := by
  unfold subAddNormal
  rcases hleaf : subAddLeaf env c sub (.normal a) t with ⟨r, t₁⟩
  have h₁ := grown_of_subAddLeaf hleaf h
  rcases r with _ | l | _
  · exact fun _ => .of_grown h₁
  · dsimp only
    split
    · rename_i t₂ hidx
      exact fun _ => .of_grown ((grown_of_addToIndex hidx (h₁.keep rfl rfl le_rfl)).erase rfl rfl le_rfl)
    · rename_i t₂ hidx
      have h₂ := grown_of_addToIndex hidx (h₁.keep rfl rfl le_rfl)
      split_ifs
      · intro hsep
        refine (Kept.of_grown ?_).trans hal (.of_apart (apart_subUpdateSubscribedTopics hx a
          (hsep.of_rot (subUpdateSubscribedTopics_rot env a _))))
        exact h₂.keep rfl rfl le_rfl
      · exact fun _ => .of_grown h₂
  · exact fun _ => .of_grown h₁

theorem kept_subAddContext {t : Broker} (h : Grown s t) (c : ClientRef) (sub : Subscription)
    (a : Addr) (ts : List String) (g : Option String) :
    Separate x (subAddContext env c sub a ts g t).2 → Kept x s (subAddContext env c sub a ts g t).2 := by
  have hw := @grown_walkEnd env s ts a t h
  unfold subAddContext
  split
  · rename_i r heq
    rw [heq] at hw
    exact fun _ => .of_grown hw
  · rename_i b t₁ heq
    rw [heq] at hw
    split_ifs
    · cases g with
      | some g => exact fun _ => .of_grown (grown_subAddShared hw c sub b g)
      | none => exact kept_subAddNormal hx hal hw c sub b
    · exact fun _ => .of_grown hw

theorem kept_subAdd (c : ClientRef) (sub : Subscription) (ts : List String) (g : Option String) :
    Separate x (subAdd env c sub ts g s).2 → Kept x s (subAdd env c sub ts g s).2 := by
  unfold subAdd
  split
  · exact fun _ => .of_grown (.refl s)
  rename_i t0 rest
  split_ifs
  · exact fun _ => .of_grown (.refl s)
  split
  · exact kept_subAddContext hx hal (.refl s) c sub _ _ g
  · have h₁ := @grown_subAddHierEntry env s s (.refl s) none t0
    split
    · rename_i a s₁ heq
      rw [heq] at h₁
      exact kept_subAddContext hx hal h₁ c sub a _ g
    · rename_i s₁ heq
      rw [heq] at h₁
      exact fun _ => .of_grown h₁

theorem kept_subRemoveNormal (c : ClientRef) (a : Addr) (reason : UInt8) :
    Separate x (subRemoveNormal env c a reason s).2.2 →
      Kept x s (subRemoveNormal env c a reason s).2.2 := by
  unfold subRemoveNormal
  split
  · exact fun _ => .of_grown (.refl s)
  · rename_i l _
    dsimp only
    split_ifs
    · intro hsep
      refine (Kept.of_grown (grown_removeFromIndex ?_ c l)).trans hal (.of_apart
        (apart_subUpdateSubscribedTopics hx a (hsep.of_rot (subUpdateSubscribedTopics_rot env a _))))
      exact (Grown.refl s).erase rfl rfl le_rfl
    · refine fun _ => .of_grown (grown_removeFromIndex ?_ c l)
      exact (Grown.refl s).erase rfl rfl le_rfl

theorem kept_subRemoveRecurse (c : ClientRef) (g : Option String) (ts : List String) :
    ∀ (a : Addr) (reason : UInt8), Separate x (subRemoveRecurse env c g a ts reason s).2.2 →
      Kept x s (subRemoveRecurse env c g a ts reason s).2.2 := by
  induction ts with
  | nil =>
    intro a reason
    cases g with
    | some g => exact fun _ => .of_grown (grown_subRemoveShared c a reason g s)
    | none => exact kept_subRemoveNormal hx hal c a reason
  | cons k ts ih =>
    intro a reason
    unfold subRemoveRecurse
    split
    · exact fun _ => .of_grown (.refl s)
    · exact fun hsep => (ih _ _ (hsep.of_subs (subs_pruneChild a k _))).trans hal
        (.of_grown (grown_pruneChild (.refl _) a k))

theorem kept_subRemove (c : ClientRef) (ts : List String) (g : Option String) (reason : UInt8) :
    Separate x (subRemove env c ts g reason s).2.2 → Kept x s (subRemove env c ts g reason s).2.2 := by
  unfold subRemove
  split
  · exact fun _ => .of_grown (.refl s)
  split
  · exact kept_subRemoveRecurse hx hal c g _ _ _
  · exact fun _ => .of_grown (.refl s)

theorem kept_unlinkOwn {t : Broker} (h : Kept x s t) (c : ClientRef) (a : Addr)
    (g : Option String) : Separate x (unlinkOwn env c a g t) → Kept x s (unlinkOwn env c a g t) := by
  unfold unlinkOwn
  split
  · split
    · rename_i m _
      split_ifs <;> refine fun _ => h.trans hal (.of_grown (grown_subRemoveSharedLeaf ?_ _ _ m)) <;>
        exact (Grown.refl t).keep rfl rfl le_rfl
    · exact fun _ => h
  · split
    · dsimp only
      split_ifs
      · intro hsep
        refine (h.trans hal (.of_grown ?_)).trans hal (.of_apart (apart_subUpdateSubscribedTopics hx a
          (hsep.of_rot (subUpdateSubscribedTopics_rot env a _))))
        exact (Grown.refl t).erase rfl rfl le_rfl
      · refine fun _ => h.trans hal (.of_grown ?_)
        exact (Grown.refl t).erase rfl rfl le_rfl
    · exact fun _ => h

theorem kept_cleanSlot {t : Broker} (h : Kept x s t) (c : ClientRef) (slot : Option LeafRef) :
    Separate x (cleanSlot env c slot t) → Kept x s (cleanSlot env c slot t) := by
  unfold cleanSlot
  split
  · exact fun _ => h
  split
  · exact fun _ => h
  split
  · exact fun _ => h
  · rename_i l _ leaf _ _ a _
    dsimp only
    intro hsep
    have h₀ : Kept x s { t with persistDeleted := t.persistDeleted ++ [(c, leaf.topicFilter)] } :=
      h.trans hal (.of_grown ((Grown.refl t).keep rfl rfl le_rfl))
    have h₁ := kept_unlinkOwn hx hal h₀ c a leaf.shared (hsep.of_subs (by rw [pruneEmpty_eq]; rfl))
    exact h₁.trans hal (.of_grown (grown_pruneEmpty (grown_setLeaf (.refl _) l none) a))

theorem kept_subCleanSession (hs : Inv env s) (c : ClientRef) :
    Kept x s (subCleanSession env c s).2 := by
  suffices ∀ (xs : List (Option LeafRef)) (t : Broker), CleanInv env c t xs → Kept x s t →
      Kept x s (xs.foldl (fun s slot => cleanSlot env c slot s) t) from
    (this _ s (CleanInv.init hs c) (.of_grown (.refl s))).trans hal
      (.of_grown ((Grown.refl _).keep rfl rfl le_rfl))
  intro xs
  induction xs with
  | nil => exact fun _ _ h => h
  | cons slot xs ih =>
    exact fun t ht h => ih _ ht.step (kept_cleanSlot hx hal h c slot (separate_of_lists ht.step.lists x))

end Sys

end MosquittoSubs.Untouched
