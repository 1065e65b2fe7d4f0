import MosquittoSubs.Matching

set_option autoImplicit false

/-!
# What a publish hands to `subs__send`

When every call of `subs__send` it makes returns 0, no block of `sub__search` returns early,
and a publish calls `subs__send` on the leaves `nodeSends` gives at each node of
`searchNodes`, in that order, reading every list as it was before the publish; it turns each group of those nodes
by one and changes no other list. `Sent s t subs sent` is that relation between the states
before and after: the lists became `subs`, the calls `sent` were logged, and the trie and
the leaves are as they were.
-/

namespace MosquittoSubs.Delivery
open Model Publish Frame Invariant Shape Matching

/-- `t` is `s` after `subs__send` was called on `sent`, in order, and the lists became `subs`. -/
structure Sent (s t : Broker) (subs : Host → List LeafRef) (sent : List LeafRef) : Prop where
  subs : t.subs = subs
  sends : t.sends = s.sends ++ sent
  hier : t.hier = s.hier
  leaves : t.leaves = s.leaves

namespace Sent

variable {s t u : Broker} {S S' : Host → List LeafRef} {L L' : List LeafRef}

theorem refl (s : Broker) : Sent s s s.subs [] :=
  ⟨rfl, by simp, rfl, rfl⟩

theorem trans (h₁ : Sent s t S L) (h₂ : Sent t u S' L') : Sent s u S' (L ++ L') :=
  ⟨h₂.subs, by rw [h₂.sends, h₁.sends, List.append_assoc], h₂.hier.trans h₁.hier,
    h₂.leaves.trans h₁.leaves⟩

theorem congr (h : Sent s t S L) (hS : S = S') (hL : L = L') : Sent s t S' L' :=
  hS ▸ hL ▸ h

theorem setSubs (s : Broker) (x : Host) (v : List LeafRef) :
    Sent s (s.setSubs x v) (Function.update s.subs x v) [] :=
  ⟨rfl, by simp, rfl, rfl⟩

end Sent

/-- `DL_DELETE` of the head and `DL_APPEND` of it: a turn by one. -/
@[simp] theorem rotate_one_cons (l : LeafRef) (rest : List LeafRef) :
    (l :: rest).rotate 1 = rest ++ [l] :=
  (List.rotate_cons_succ rest l 0).trans (List.rotate_zero _)

/-- The lists after `subs__process` has run once at each node of `done`: every group of
those nodes turned by one. -/
def turned (s : Broker) (done : List Addr) (x : Host) : List LeafRef :=
  if x ∈ done.flatMap (fun b => (s.groups b).map (.shared b)) then (s.subs x).rotate 1
  else s.subs x

theorem mem_turnedHosts {s : Broker} {done : List Addr} {x : Host} :
    x ∈ done.flatMap (fun b => (s.groups b).map (.shared b)) ↔
      ∃ b ∈ done, ∃ g ∈ s.groups b, x = .shared b g := by
  simp [eq_comm]

@[simp] theorem turned_nil (s : Broker) : turned s [] = s.subs := by
  funext x
  simp [turned]

section Loops

variable {env : Env} {topic : String} {qos : UInt8} {retain : Bool} {stored : BaseMsg}

theorem subsSend_sent (l : LeafRef) (s : Broker) :
    Sent s (subsSend env l topic qos retain stored s).2 s.subs [l] := by
  obtain ⟨_, _, h⟩ := subsSend_logs env topic qos retain stored l s
  rw [h]
  exact ⟨rfl, rfl, rfl, rfl⟩

theorem skips_congr {s t : Broker} (h : t.leaves = s.leaves) (src : String) :
    skips env src t = skips env src s := by
  funext l
  simp only [skips, h]

variable {S : List LeafRef} (hsend : ∀ l ∈ S, ∀ t, (subsSend env l topic qos retain stored t).1 = 0)
include hsend

theorem subsSharedProcess_sent (a : Addr) :
    ∀ (gs : List String) (rc : Int) (s : Broker), gs.Nodup →
      (gs.filterMap fun g => (s.subs (.shared a g)).head?) ⊆ S →
      let r := subsSharedProcess env topic qos retain stored a gs rc s
      r.1 = rc ∧ Sent s r.2 (fun x => if x ∈ gs.map (.shared a) then (s.subs x).rotate 1 else s.subs x)
        (gs.filterMap fun g => (s.subs (.shared a g)).head?) := by
  intro gs
  induction gs with
  | nil =>
    intro rc s _ _
    exact ⟨rfl, by simpa using Sent.refl s⟩
  | cons g gs ih =>
    intro rc s hnd hS
    obtain ⟨hg, hnd⟩ := List.nodup_cons.mp hnd
    have hne : ∀ g' ∈ gs, Host.shared a g' ≠ .shared a g := fun g' hg' h => by
      cases h
      exact hg hg'
    unfold subsSharedProcess
    split
    · rename_i hl
      obtain ⟨hrc, hsent⟩ := ih rc s hnd (by simpa [hl] using hS)
      refine ⟨hrc, hsent.congr (funext fun x => ?_) (by simp [hl])⟩
      by_cases hx : x = .shared a g
      · subst hx
        simp [hl, hne]
      · simp [hx]
    · rename_i l rest hl
      have h₀ := @subsSend_sent env topic qos retain stored l s
      have h₁ := h₀.trans (Sent.setSubs _ (.shared a g) (rest ++ [l]))
      -- the other groups' heads are read as they were
      have htail : (gs.filterMap fun g' =>
          (Function.update s.subs (.shared a g) (rest ++ [l]) (.shared a g')).head?) =
          gs.filterMap fun g' => (s.subs (.shared a g')).head? :=
        List.filterMap_congr fun g' hg' => by rw [Function.update_noteq (hne g' hg')]
      simp only [List.filterMap_cons, hl, List.head?_cons, List.cons_subset] at hS
      simp only [hsend l hS.1, ne_eq, not_true_eq_false, if_false]
      obtain ⟨hrc, hsent⟩ := ih rc _ hnd (by rw [h₁.subs, h₀.subs, htail]; exact hS.2)
      refine ⟨hrc, (h₁.trans hsent).congr (funext fun x => ?_) ?_⟩
      · rw [h₁.subs, h₀.subs]
        by_cases hx : x = .shared a g
        · subst hx
          simp [hl, hg]
        · simp [hx, Function.update_noteq hx]
      · rw [h₁.subs, h₀.subs, htail]
        simp [hl]

theorem sendLeaves_sent (src : String) :
    ∀ (ls : List LeafRef) (rc : Int) (s : Broker), (ls.filter fun l => !skips env src s l) ⊆ S →
      let r := sendLeaves env topic qos retain stored src ls rc s
      r.1 = rc ∧ Sent s r.2 s.subs (ls.filter fun l => !skips env src s l) := by
  intro ls
  induction ls with
  | nil =>
    intro rc s _
    exact ⟨rfl, Sent.refl s⟩
  | cons l ls ih =>
    intro rc s hS
    unfold sendLeaves
    split
    · rename_i hl
      obtain ⟨hrc, hsent⟩ := ih rc s (by simpa [hl] using hS)
      exact ⟨hrc, by simpa [hl] using hsent⟩
    · rename_i hl
      have h₁ := @subsSend_sent env topic qos retain stored l s
      simp only [List.filter_cons, hl, Bool.not_false, if_true, List.cons_subset] at hS
      obtain ⟨hrc, hsent⟩ := ih (if (subsSend env l topic qos retain stored s).1 ≠ 0 then 1 else rc)
        (subsSend env l topic qos retain stored s).2 (by rw [skips_congr h₁.leaves]; exact hS.2)
      refine ⟨by simpa [hsend l hS.1] using hrc, ?_⟩
      rw [skips_congr h₁.leaves, h₁.subs] at hsent
      simpa [hl] using h₁.trans hsent

theorem subsProcess_sent (src : Option String) (b : Addr) (s : Broker)
    (hnd : (s.groups b).Nodup) (hS : nodeSends env src s b ⊆ S) :
    let r := subsProcess env topic qos retain stored src b s
    r.1 = (if s.subs (.normal b) = [] ∧ s.groups b = [] then MosqErr.noSubscribers
      else MosqErr.success) ∧
    Sent s r.2 (turned s [b]) (nodeSends env src s b) := by
  obtain ⟨hrc₁, h₁⟩ := subsSharedProcess_sent hsend b (s.groups b) 0 s hnd
    fun l hl => hS (List.mem_append_left _ hl)
  have hturn : (fun x => if x ∈ (s.groups b).map (.shared b) then (s.subs x).rotate 1
      else s.subs x) = turned s [b] := funext fun x => by simp [turned]
  -- the leaf loop, which runs only when there is a source id
  have hloop : let r := subsSharedProcess env topic qos retain stored b (s.groups b) 0 s
      let r' := match src with
        | some src => sendLeaves env topic qos retain stored src (s.subs (.normal b)) r.1 r.2
        | none => r
      r'.1 = 0 ∧ Sent s r'.2 (turned s [b]) (nodeSends env src s b) := by
    cases src with
    | none => exact ⟨hrc₁, h₁.congr hturn (by simp [nodeSends])⟩
    | some src =>
      obtain ⟨hrc₂, h₂⟩ := sendLeaves_sent hsend src (s.subs (.normal b)) _
        (subsSharedProcess env topic qos retain stored b (s.groups b) 0 s).2
        (by rw [skips_congr h₁.leaves]; exact fun l hl => hS (List.mem_append_right _ hl))
      rw [skips_congr h₁.leaves, h₁.subs] at h₂
      exact ⟨hrc₂.trans hrc₁, (h₁.trans h₂).congr hturn rfl⟩
  refine ⟨?_, hloop.2⟩
  simp only [subsProcess]
  split_ifs
  · rfl
  · exact hloop.1

end Loops

/-! ## The search -/

theorem absorb_going (found : Bool) {r : Int × Broker}
    (h : r.1 = MosqErr.success ∨ r.1 = MosqErr.noSubscribers) :
    ∃ found', Walk.absorb found r = .going found' r.2 := by
  obtain ⟨rc, t⟩ := r
  rcases h with rfl | rfl
  · exact ⟨true, rfl⟩
  · exact ⟨found, rfl⟩

theorem finish_going (found : Bool) (t : Broker) :
    ((Walk.going found t).finish.1 = MosqErr.success ∨
      (Walk.going found t).finish.1 = MosqErr.noSubscribers) ∧ (Walk.going found t).finish.2 = t := by
  cases found <;> simp [Walk.finish]

theorem not_suffix_of_key {a d : Addr} {c c' : String} {P : List String} (hc : c ≠ c')
    (hd : d = P ++ c' :: a) : ¬ (c :: a) <:+ d := by
  rintro ⟨Q, hQ⟩
  exact hc (key_eq_of_append (hQ.trans hd))

section Search

variable {env : Env} {topic : String} {qos : UInt8} {retain : Bool} {stored : BaseMsg}
  {S : List LeafRef} (hsend : ∀ l ∈ S, ∀ t, (subsSend env l topic qos retain stored t).1 = 0)
  (src : Option String) {s₀ : Broker}
  (hg : ∀ b, (s₀.groups b).Nodup)
include hsend hg

theorem process_sent {b : Addr} {done : List Addr} {t : Broker} (hb : b ∉ done)
    (hh : t.hier = s₀.hier) (hl : t.leaves = s₀.leaves) (hs : t.subs = turned s₀ done)
    (hS : nodeSends env src s₀ b ⊆ S) :
    let r := subsProcess env topic qos retain stored src b t
    (r.1 = MosqErr.success ∨ r.1 = MosqErr.noSubscribers) ∧
    Sent t r.2 (turned s₀ (done ++ [b])) (nodeSends env src s₀ b) := by
  have hgr : t.groups b = s₀.groups b := by simp [Broker.groups, hh]
  have hat : ∀ x, x.addr = b → t.subs x = s₀.subs x := fun x hx => by
    rw [hs, turned, if_neg]
    rw [mem_turnedHosts]
    rintro ⟨d, hd, g, -, rfl⟩
    exact hb (hx ▸ hd)
  have hns : nodeSends env src t b = nodeSends env src s₀ b := by
    simp only [nodeSends, hgr, fun g => hat (.shared b g) rfl, hat (.normal b) rfl,
      skips_congr hl]
  obtain ⟨hrc, hsent⟩ := subsProcess_sent hsend src b t (hgr ▸ hg b) (hns ▸ hS)
  refine ⟨by rw [hrc]; split_ifs <;> simp, hsent.congr (funext fun x => ?_) hns⟩
  by_cases hx : x ∈ (s₀.groups b).map (.shared b)
  · obtain ⟨g, -, rfl⟩ := List.mem_map.mp hx
    simp [turned, hgr, hat (.shared b g) rfl, hx]
  · have : x ∉ (t.groups b).map (.shared b) := hgr ▸ hx
    simp only [turned, List.flatMap_append, List.flatMap_singleton, List.mem_append, hx,
      this, or_false, if_false, hs]

theorem searchBranch_sent {a : Addr} {c : String} {rest : List String} {done : List Addr}
    {t : Broker} (found : Bool)
    (ih : ∀ (done : List Addr) (t : Broker), t.hier = s₀.hier → t.leaves = s₀.leaves →
      t.subs = turned s₀ done → (∀ d ∈ done, ¬ (c :: a) <:+ d) →
      (∀ b ∈ searchNodes s₀ (c :: a) rest, nodeSends env src s₀ b ⊆ S) →
      let r := subSearch env src topic qos retain stored (c :: a) rest t
      (r.1 = MosqErr.success ∨ r.1 = MosqErr.noSubscribers) ∧
      Sent t r.2 (turned s₀ (done ++ searchNodes s₀ (c :: a) rest))
        ((searchNodes s₀ (c :: a) rest).flatMap (nodeSends env src s₀)))
    (hh : t.hier = s₀.hier) (hl : t.leaves = s₀.leaves) (hs : t.subs = turned s₀ done)
    (hd : ∀ d ∈ done, ¬ (c :: a) <:+ d)
    (hS : ∀ b ∈ branchNodes s₀ (c :: a) rest, nodeSends env src s₀ b ⊆ S) :
    ∃ found' t', searchBranch (subsProcess env topic qos retain stored src)
      (fun b s => subSearch env src topic qos retain stored b rest s) rest.isEmpty (c :: a)
        found t = .going found' t' ∧
      Sent t t' (turned s₀ (done ++ branchNodes s₀ (c :: a) rest))
        ((branchNodes s₀ (c :: a) rest).flatMap (nodeSends env src s₀)) := by
  have hmem := fun b => @mem_branchNodes s₀ b (c :: a) rest
  unfold searchBranch branchNodes
  rw [hh]
  cases hc : s₀.hier (c :: a) with
  | none => exact ⟨found, t, rfl, by simpa [hs] using Sent.refl t⟩
  | some n =>
    simp only [hc, Option.isSome_some, true_and] at hmem
    obtain ⟨hrc, h₁⟩ := ih done t hh hl hs hd fun b hb => hS b ((hmem b).mpr (.inl hb))
    obtain ⟨f₁, hf₁⟩ := absorb_going found hrc
    simp only [Option.isSome_some, if_true, hf₁, Walk.bind]
    by_cases hr : rest.isEmpty = true
    · have hb : c :: a ∉ done ++ searchNodes s₀ (c :: a) rest := by
        rw [List.mem_append, not_or]
        refine ⟨fun h => hd _ h (List.suffix_refl _), fun h => ?_⟩
        obtain ⟨P, hP, hPe⟩ := below_of_mem_searchNodes rest h
        exact hP (by simpa using hPe)
      obtain ⟨hrc₂, h₂⟩ := process_sent hsend src hg hb (h₁.hier.trans hh) (h₁.leaves.trans hl)
        h₁.subs (hS _ ((hmem _).mpr (.inr ⟨List.isEmpty_iff.mp hr, rfl⟩)))
      obtain ⟨f₂, hf₂⟩ := absorb_going f₁ hrc₂
      simp only [hr, if_true]
      exact ⟨f₂, _, hf₂, (h₁.trans h₂).congr (by simp) (by simp)⟩
    · simp only [hr, if_false, Bool.false_eq_true]
      exact ⟨f₁, _, rfl, h₁.congr (by simp) (by simp)⟩

theorem searchHash_sent {a : Addr} {done : List Addr} {t : Broker} (found : Bool)
    (hh : t.hier = s₀.hier) (hl : t.leaves = s₀.leaves) (hs : t.subs = turned s₀ done)
    (hd : "#" :: a ∉ done) (hS : ∀ b ∈ hashNodes s₀ a, nodeSends env src s₀ b ⊆ S) :
    ∃ found' t', searchHash (subsProcess env topic qos retain stored src) a found t =
        .going found' t' ∧
      Sent t t' (turned s₀ (done ++ hashNodes s₀ a)) ((hashNodes s₀ a).flatMap (nodeSends env src s₀)) := by
  have hch : t.children ("#" :: a) = s₀.children ("#" :: a) := by simp [Broker.children, hh]
  have hmem := fun b => @mem_hashNodes s₀ a b
  unfold searchHash hashNodes
  rw [hh, hch]
  cases hc : s₀.hier ("#" :: a) with
  | none => exact ⟨found, t, rfl, by simpa [hs] using Sent.refl t⟩
  | some n =>
    by_cases he : s₀.children ("#" :: a) = []
    · obtain ⟨hrc, h₁⟩ := process_sent hsend src hg hd hh hl hs
        (hS _ ((hmem _).mpr ⟨rfl, by simp [hc], he⟩))
      obtain ⟨f₁, hf₁⟩ := absorb_going found hrc
      simp only [he, if_true, Option.isSome_some, true_and]
      exact ⟨f₁, _, hf₁, h₁.congr rfl (by simp)⟩
    · simp only [he, if_false, Option.isSome_some, true_and]
      exact ⟨found, t, rfl, by simpa [hs] using Sent.refl t⟩

theorem subSearch_sent (T : List String) (hp : "+" ∉ T) (hhash : "#" ∉ T) :
    ∀ (a : Addr) (done : List Addr) (t : Broker), t.hier = s₀.hier → t.leaves = s₀.leaves →
      t.subs = turned s₀ done → (∀ d ∈ done, ¬ a <:+ d) →
      (∀ b ∈ searchNodes s₀ a T, nodeSends env src s₀ b ⊆ S) →
      let r := subSearch env src topic qos retain stored a T t
      (r.1 = MosqErr.success ∨ r.1 = MosqErr.noSubscribers) ∧
      Sent t r.2 (turned s₀ (done ++ searchNodes s₀ a T))
        ((searchNodes s₀ a T).flatMap (nodeSends env src s₀)) := by
  induction T with
  | nil =>
    intro a done t hh hl hs hd hS
    obtain ⟨f, t', hw, hsent⟩ := searchHash_sent hsend src hg false hh hl hs
      (fun h => hd _ h (List.suffix_cons _ _)) hS
    simp only [subSearch, hw]
    exact ⟨(finish_going f t').1, (finish_going f t').2 ▸ hsent⟩
  | cons t₁ rest ih =>
    intro a done t hh hl hs hd hS
    simp only [searchNodes_cons, List.mem_append] at hS
    simp only [List.mem_cons, not_or] at hp hhash
    have ih' := fun b => ih hp.2 hhash.2 b
    obtain ⟨f₁, u₁, hw₁, h₁⟩ := searchBranch_sent hsend src hg (c := t₁) false
      (ih' _) hh hl hs (fun d hd' h => hd d hd' ((List.suffix_cons _ _).trans h))
      fun b hb => hS b (.inl (.inl hb))
    have hd₂ : ∀ d ∈ done ++ branchNodes s₀ (t₁ :: a) rest, ¬ ("+" :: a) <:+ d := by
      intro d hd' h
      rcases List.mem_append.mp hd' with hd' | hd'
      · exact hd d hd' ((List.suffix_cons _ _).trans h)
      · obtain ⟨P, hP⟩ := suffix_of_mem_branchNodes hd'
        exact not_suffix_of_key hp.1 hP h
    obtain ⟨f₂, u₂, hw₂, h₂⟩ := searchBranch_sent hsend src hg (c := "+") f₁
      (ih' _) (h₁.hier.trans hh) (h₁.leaves.trans hl) h₁.subs hd₂ fun b hb => hS b (.inl (.inr hb))
    have hd₃ : "#" :: a ∉ done ++ branchNodes s₀ (t₁ :: a) rest ++ branchNodes s₀ ("+" :: a) rest := by
      intro h
      simp only [List.mem_append] at h
      rcases h with (h | h) | h
      · exact hd _ h (List.suffix_cons _ _)
      · obtain ⟨P, hP⟩ := suffix_of_mem_branchNodes h
        exact hhash.1 (key_eq_of_append (hP.symm.trans (List.nil_append _).symm)).symm
      · obtain ⟨P, hP⟩ := suffix_of_mem_branchNodes h
        exact absurd (key_eq_of_append (hP.symm.trans (List.nil_append _).symm)) (by decide)
    obtain ⟨f₃, u₃, hw₃, h₃⟩ := searchHash_sent hsend src hg f₂ (h₂.hier.trans (h₁.hier.trans hh))
      (h₂.leaves.trans (h₁.leaves.trans hl)) h₂.subs hd₃ fun b hb => hS b (.inr hb)
    simp only [subSearch, hw₁, Walk.bind, hw₂, hw₃]
    refine ⟨(finish_going f₃ u₃).1, (finish_going f₃ u₃).2 ▸ ?_⟩
    refine ((h₁.trans h₂).trans h₃).congr (by simp [searchNodes_cons]) (by simp [searchNodes_cons])

theorem subMessagesQueue_sent (T : List String) (hp : "+" ∉ T) (hhash : "#" ∉ T)
    (hS : ∀ b ∈ queueNodes s₀ T, nodeSends env src s₀ b ⊆ S) :
    Sent s₀ (subMessagesQueue env src topic T qos retain stored s₀).2
      (turned s₀ (queueNodes s₀ T)) ((queueNodes s₀ T).flatMap (nodeSends env src s₀)) := by
  cases T with
  | nil => simpa [subMessagesQueue, queueNodes] using Sent.refl s₀
  | cons t0 rest =>
    have h : Sent s₀ (match s₀.hier [t0] with
        | some _ => subSearch env src topic qos retain stored [t0] (t0 :: rest) s₀
        | none => (MosqErr.success, s₀)).2
          (turned s₀ (queueNodes s₀ (t0 :: rest)))
          ((queueNodes s₀ (t0 :: rest)).flatMap (nodeSends env src s₀)) := by
      unfold queueNodes
      cases hr : s₀.hier [t0] with
      | none => simpa [hr] using Sent.refl s₀
      | some n =>
        simpa [hr] using (subSearch_sent hsend src hg (t0 :: rest) hp hhash [t0] [] s₀ rfl rfl
          (turned_nil s₀).symm (by simp) fun b hb => hS b (by simp [queueNodes, hr, hb])).2
    simp only [subMessagesQueue]
    split_ifs <;> exact h

end Search

end MosquittoSubs.Delivery
