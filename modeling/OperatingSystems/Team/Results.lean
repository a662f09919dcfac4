import OperatingSystems.Team.Preservation

/-!
# The outcome of a team

No run of a team comes to a halt before the parent has ended. Where the replies
come back through the workers' own mailboxes the parent receives the reply of
worker `i` from mailbox `i`; where they come through mailbox 0 it receives one
reply of each worker in some order. What the parent reports is made of these
replies.
-/

namespace OperatingSystems

namespace Team

open OperatingSystems.Thread

variable {Msg Acc : Type} {job : Job Msg Acc} {reply : ℕ → Msg}

section Counting

variable {n : ℕ} {l : List ℕ}

/-- Distinct numbers from 1 to `n`, and all of them. -/
theorem perm_range' (hnodup : l.Nodup) (hmem : ∀ i ∈ l, 1 ≤ i ∧ i ≤ n) (hlen : n ≤ l.length) :
    l.Perm (List.range' 1 n) := by
  have hsubset : l ⊆ List.range' 1 n := by
    intro i hi
    have hi := hmem i hi
    rw [List.mem_range'_1]
    omega
  have hsub := List.subperm_of_subset hnodup hsubset
  exact hsub.perm_of_length_le (by rw [List.length_range']; exact hlen)

/-- Too few numbers leave one out. -/
theorem exists_not_mem (hlen : l.length < n) : ∃ i, 1 ≤ i ∧ i ≤ n ∧ i ∉ l := by
  by_contra hall
  have hsubset : List.range' 1 n ⊆ l := by
    intro i hi
    by_contra hno
    rw [List.mem_range'_1] at hi
    exact hall ⟨i, by omega, by omega, hno⟩
  have hsub := List.subperm_of_subset List.nodup_range' hsubset
  have hle := hsub.length_le
  rw [List.length_range'] at hle
  omega

end Counting

section Order

variable {s : View Msg Acc} {order : List ℕ}

theorem Inv.order_length (h : Inv job reply order s) :
    order.length = s.parent.gathered job := by
  obtain ⟨pending, horder⟩ := h.order
  exact horder.length

/-- Once the parent has taken a reply for each worker it has taken one of each. -/
theorem Inv.order_perm (h : Inv job reply order s) (hall : s.parent.gathered job = job.size) :
    order.Perm (List.range' 1 job.size) := by
  obtain ⟨pending, horder⟩ := h.order
  refine perm_range' (List.nodup_append.mp horder.nodup).1 (fun i hi => ?_) ?_
  · exact ((horder.mem i).mp (List.mem_append_left _ hi)).1
  · rw [horder.length, hall]

/-- A worker whose reply has been taken has ended its work. -/
theorem Inv.returned_of_mem {i : ℕ} (h : Inv job reply order s) (hi : i ∈ order) :
    s.worker i = .returned := by
  obtain ⟨pending, horder⟩ := h.order
  exact ((horder.mem i).mp (List.mem_append_left _ hi)).2

/-- While mailbox 0 is empty no reply is pending in it. -/
theorem Inv.mem_order (h : Inv job reply order s) (hshared : job.own = false)
    (hbox : s.box 0 = none) {i : ℕ} (hi : 1 ≤ i) (hin : i ≤ job.size)
    (hret : s.worker i = .returned) : i ∈ order := by
  obtain ⟨pending, horder⟩ := h.order
  have hhead := (horder.shared hshared).1
  rw [hbox] at hhead
  have hnil : pending = [] := by
    cases pending with
    | nil => rfl
    | cons j rest => simp at hhead
  have hmem := (horder.mem i).mpr ⟨⟨hi, hin⟩, hret⟩
  rwa [hnil, List.append_nil] at hmem

/-- What the parent has made of the replies. -/
theorem Inv.acc_eq (h : Inv job reply order s) {acc : Acc} (hacc : s.parent.acc? = some acc) :
    acc = (order.map reply).foldl job.absorb job.start := by
  obtain ⟨pending, horder⟩ := h.order
  exact horder.acc acc hacc

theorem Inv.order_own (h : Inv job reply order s) (hown : job.own = true) :
    order = List.range' 1 (s.parent.gathered job) := by
  obtain ⟨pending, horder⟩ := h.order
  rw [← horder.length]
  exact horder.own hown

end Order

section Progress

variable {a : Atomic job.program} {order : List ℕ} {i : ℕ}

/-- In a deadlock after all requests have been sent a worker that has not ended
waits to send its reply. -/
theorem Inv.blocked_reply (h : Inv job reply order (view a))
    (hstuck : Transition.Stuck atomicNext a) (hsent : (view a).parent.sent job = job.size)
    (hcreated : (view a).parent.created job = job.size) (hi : 1 ≤ i) (hin : i ≤ job.size)
    (hexited : (view a).status (.worker i) ≠ .exited) :
    ∃ m, (view a).worker i = .reply m ∧ (view a).box (job.replyBox i) ≠ none := by
  have hnew : (view a).status (.worker i) ≠ .new := (h.created i).mpr ⟨hi, by rwa [hcreated]⟩
  have hrun : (view a).status (.worker i) = .running := by
    cases hs : (view a).status (.worker i) <;> simp_all
  rcases workerWaits_of_stuck hstuck h.aborted hrun with ⟨hw, hbox⟩ | hreply
  · have hok := h.workerOk i hi hin
    rw [hw, hsent] at hok
    simp only [WorkerOk, hbox, if_pos hin] at hok
    contradiction
  · exact hreply

/-- The parent does not wait for ever to send a request: the worker has not been sent
one before. -/
theorem Inv.box_of_send {s : View Msg Acc} (h : Inv job reply order s)
    (hl : s.parent = .send i) : s.box i = none := by
  have hok := h.parentOk
  rw [hl] at hok
  obtain ⟨hi, hin⟩ := hok
  have hsent : s.parent.sent job < i := by
    rw [hl]
    exact Nat.sub_lt hi Nat.one_pos
  have hworker := h.workerOk i hi hin
  cases hw : s.worker i <;> rw [hw] at hworker <;> simp only [WorkerOk] at hworker
  · rwa [if_neg (by omega)] at hworker
  all_goals omega

/-- The parent does not wait for ever for a reply: where all come through mailbox 0,
some worker has not replied and the mailbox is free for its reply. -/
theorem Inv.not_blocked_gather (h : Inv job reply order (view a))
    (hstuck : Transition.Stuck atomicNext a) {acc : Acc}
    (hl : (view a).parent = .gather i acc) : (view a).box (job.replyBox i) ≠ none := by
  intro hbox
  have hok := h.parentOk
  rw [hl] at hok
  obtain ⟨hi, hin⟩ := hok
  cases hown : job.own with
  | true =>
      rw [Job.replyBox, if_pos hown, (h.box_of_gather hl hown).2] at hbox
      contradiction
  | false =>
      rw [Job.replyBox, hown, if_neg (by simp)] at hbox
      have hgathered : (view a).parent.gathered job = i - 1 := by rw [hl]; rfl
      obtain ⟨k, hk, hkn, hnot⟩ := exists_not_mem (l := order) (n := job.size)
        (by rw [h.order_length, hgathered]; omega)
      have hexited : (view a).status (.worker k) ≠ .exited := fun he =>
        hnot (h.mem_order hown hbox hk hkn (h.exited k he))
      obtain ⟨m, -, hfull⟩ := h.blocked_reply hstuck (by rw [hl]; rfl) (by rw [hl]; rfl) hk hkn
        hexited
      rw [Job.replyBox, hown, if_neg (by simp)] at hfull
      exact hfull hbox

/-- The parent does not wait for ever for a worker to end. -/
theorem Inv.not_blocked_join (h : Inv job reply order (view a))
    (hstuck : Transition.Stuck atomicNext a)
    (hl : (view a).parent = .joinFirst i ∨ ∃ acc, (view a).parent = .joinLast i acc) :
    (view a).status (.worker i) = .exited := by
  by_contra hexited
  have hok := h.parentOk
  rcases hl with hl | ⟨acc, hl⟩
  · rw [hl] at hok
    obtain ⟨hi, hin, hown⟩ := hok
    obtain ⟨m, hw, hfull⟩ := h.blocked_reply hstuck (by rw [hl]; rfl) (by rw [hl]; rfl) hi hin
      hexited
    have hworker := h.workerOk i hi hin
    rw [hw] at hworker
    rw [Job.replyBox, if_pos hown] at hfull
    exact hfull hworker.2.2
  · rw [hl] at hok
    obtain ⟨hi, hin, hown⟩ := hok
    obtain ⟨m, hw, -⟩ := h.blocked_reply hstuck (by rw [hl]; rfl) (by rw [hl]; rfl) hi hin
      hexited
    have hperm := h.order_perm (by rw [hl]; rfl)
    have hret := h.returned_of_mem (hperm.mem_iff.mpr (List.mem_range'_1.mpr ⟨hi, by omega⟩))
    rw [hw] at hret
    contradiction

/-- A deadlock comes only after the parent has ended. -/
theorem Inv.exited_of_stuck (h : Inv job reply order (view a))
    (hstuck : Transition.Stuck atomicNext a) : (view a).status .parent = .exited := by
  rcases h.parent with hrun | ⟨hexited, -⟩
  · exfalso
    rcases parentWaits_of_stuck hstuck h.aborted hrun with ⟨i, hl, hbox⟩ | ⟨i, acc, hl, hbox⟩ |
      ⟨i, hl, hexited⟩
    · exact hbox (h.box_of_send hl)
    · exact h.not_blocked_gather hstuck hl hbox
    · exact hexited (h.not_blocked_join hstuck hl)
  · exact hexited

end Progress

section Takes

variable {a : Atomic job.program} {s s' : View Msg Acc} {order : List ℕ} {i b : ℕ}

/-- The request that a worker has taken out of its mailbox. -/
def Job.requestTaken (job : Job Msg Acc) (i : ℕ) : WorkerLoc Msg → List Msg
  | .receive => []
  | _ => [job.request i]

theorem requestTaken_of_ne {l : WorkerLoc Msg} (h : l ≠ .receive) :
    job.requestTaken i l = [job.request i] := by
  cases l <;> first | rfl | contradiction

theorem takes_gather {acc : Acc} (hl : (view a).parent = .gather i acc) :
    takes .parent a b = if job.replyBox i = b then (a.box b).toList else [] := by
  have hcode : job.program.code .parent (a.loc .parent) = job.parentCode (view a).parent := rfl
  unfold takes
  rw [hcode, hl]
  rfl

theorem takes_parent_of_ne (hl : ∀ i acc, (view a).parent ≠ .gather i acc) :
    takes .parent a b = [] := by
  have hcode : job.program.code .parent (a.loc .parent) = job.parentCode (view a).parent := rfl
  unfold takes
  rw [hcode]
  cases hp : (view a).parent with
  | gather i acc => exact absurd hp (hl i acc)
  | _ => rfl

theorem takes_receive (hl : (view a).worker i = .receive) :
    takes (.worker i) a b = if i = b then (a.box b).toList else [] := by
  have hcode : job.program.code (.worker i) (a.loc (.worker i)) =
    job.workerCode i ((view a).worker i) := rfl
  unfold takes
  rw [hcode, hl]
  rfl

theorem takes_worker_of_ne (hl : (view a).worker i ≠ .receive) :
    takes (.worker i) a b = [] := by
  have hcode : job.program.code (.worker i) (a.loc (.worker i)) =
    job.workerCode i ((view a).worker i) := rfl
  unfold takes
  rw [hcode]
  cases hw : (view a).worker i with
  | receive => exact absurd hw hl
  | _ => rfl

theorem worker_of_parentMove (hm : ParentMove job s s') : s'.worker = s.worker := by
  cases hm <;> rfl

theorem parent_of_workerMove (hm : WorkerMove job i s s') :
    s'.parent = s.parent ∧ ∀ j, j ≠ i → s'.worker j = s.worker j := by
  cases hm <;> exact ⟨rfl, fun j hj => by simp [hj]⟩

/-- No worker comes back to its receive. -/
theorem not_receive_of_workerMove (hm : WorkerMove job i s s') : s'.worker i ≠ .receive := by
  cases hm <;> simp_all

/-- A worker takes its own request. -/
theorem Inv.request_of_receive (h : Inv job reply order s) (hi : 1 ≤ i) (hin : i ≤ job.size)
    (hl : s.worker i = .receive) (hm : WorkerMove job i s s') :
    ∃ m, s.box i = some m ∧ m = job.request i ∧ s'.worker i = .compute m := by
  cases hm with
  | receive m hl' hbox =>
      have hworker := h.workerOk i hi hin
      rw [hl] at hworker
      simp only [WorkerOk, hbox] at hworker
      split at hworker
      · exact ⟨m, hbox, Option.some.inj hworker, Function.update_self _ _ _⟩
      · contradiction
  | compute m m' hl' => simp [hl] at hl'
  | fail m hl' => simp [hl] at hl'
  | reply m hl' => simp [hl] at hl'
  | exit hl' => simp [hl] at hl'
  | abort hl' => simp [hl] at hl'

/-- What has been taken out of the own mailbox of worker `i`: its request and then
its reply. -/
def ownTaken (job : Job Msg Acc) (reply : ℕ → Msg) (i : ℕ) (s : View Msg Acc) : List Msg :=
  job.requestTaken i (s.worker i) ++ if i ≤ s.parent.gathered job then [reply i] else []

/-- The parent takes the reply of worker `i` out of mailbox `i`. -/
theorem Inv.ownTaken_parentMove {a a' : Atomic job.program}
    (h : Inv job reply order (view a)) (hown : job.own = true)
    (hrun : (view a).status .parent = .running) (hm : ParentMove job (view a) (view a')) :
    (∃ order', Inv job reply order' (view a')) ∧
      ownTaken job reply i (view a') = ownTaken job reply i (view a) ++ takes .parent a i := by
  have hworker := worker_of_parentMove hm
  have hbox : ∀ k, job.replyBox k = k := fun k => if_pos hown
  unfold ownTaken
  rcases h.parentMove hrun hm with ⟨j, acc, k, hl, hfull, hk, hinv'⟩ | ⟨hl, hinv'⟩
  · refine ⟨⟨_, hinv'⟩, ?_⟩
    obtain rfl := hk hown
    have hgathered : (view a).parent.gathered job + 1 = (view a').parent.gathered job := by
      rw [← h.order_length, ← hinv'.order_length, List.length_append, List.length_singleton]
    have hk1 : (view a).parent.gathered job = k - 1 := by rw [hl]; rfl
    have hkpos : 1 ≤ k := by
      have hok := h.parentOk
      rw [hl] at hok
      exact hok.1
    rw [takes_gather hl, hbox, hworker, ← hgathered, hk1, List.append_assoc]
    rw [hbox] at hfull
    by_cases hki : k = i
    · subst hki
      have hno : ¬ k ≤ k - 1 := by omega
      have hyes : k ≤ k - 1 + 1 := by omega
      have hsome : a.box k = some (reply k) := hfull
      rw [if_neg hno, if_pos hyes, if_pos rfl, hsome]
      rfl
    · have hiff : i ≤ k - 1 ↔ i ≤ k - 1 + 1 := by omega
      rw [if_neg hki, List.append_nil, if_congr hiff rfl rfl]
  · refine ⟨⟨_, hinv'⟩, ?_⟩
    rw [takes_parent_of_ne hl, List.append_nil, hworker, ← hinv'.order_length, h.order_length]

/-- Worker `i` takes its request out of mailbox `i`, before the parent takes its
reply. -/
theorem Inv.ownTaken_workerMove {a a' : Atomic job.program} {k : ℕ}
    (h : Inv job reply order (view a)) (hown : job.own = true) (hi : 1 ≤ i) (hin : i ≤ job.size)
    (hm : WorkerMove job k (view a) (view a')) :
    ownTaken job reply i (view a') = ownTaken job reply i (view a) ++ takes (.worker k) a i := by
  obtain ⟨hparent, hothers⟩ := parent_of_workerMove hm
  unfold ownTaken
  rw [hparent]
  by_cases hrecv : (view a).worker k = .receive
  · rw [takes_receive hrecv]
    by_cases hki : k = i
    · subst hki
      obtain ⟨m, hfull, hrequest, hcompute⟩ := h.request_of_receive hi hin hrecv hm
      have hno : ¬ k ≤ (view a).parent.gathered job := fun hle => by
        have hmem : k ∈ order := by
          rw [h.order_own hown, List.mem_range'_1]
          omega
        have hret := h.returned_of_mem hmem
        rw [hrecv] at hret
        contradiction
      have hsome : a.box k = some m := hfull
      rw [hrecv, hcompute, if_neg hno, if_pos rfl, hsome, hrequest]
      rfl
    · rw [if_neg hki, List.append_nil, hothers i (Ne.symm hki)]
  · rw [takes_worker_of_ne hrecv, List.append_nil]
    by_cases hki : k = i
    · subst hki
      rw [requestTaken_of_ne hrecv, requestTaken_of_ne (not_receive_of_workerMove hm)]
    · rw [hothers i (Ne.symm hki)]

end Takes

section Outcome

variable {blank : Msg} {s : State job.program} {i : ℕ} {acc : Acc}

theorem exclusive_init (job : Job Msg Acc) (blank : Msg) : Exclusive (job.init blank) :=
  exclusive_initial job.program _ _ _ _ _

/-- No run comes to a halt before the parent has ended. -/
theorem exited_of_stuck (hreply : job.Replies reply)
    (hs : Transition.Reachable next (job.init blank) s) (h : Transition.Stuck next s) :
    s.status .parent = .exited := by
  have hexcl := exclusive_init job blank
  obtain ⟨order, hinv⟩ := inv_of_reachable hreply (abstract_reachable hexcl hs)
  exact hinv.exited_of_stuck (stuck_abstract (hexcl.of_reachable hs) h)

/-- No worker fails, and nobody ends the process. -/
theorem not_failed (hreply : job.Replies reply)
    (hs : Transition.Reachable next (job.init blank) s) :
    s.aborted = false ∧
      ∀ i, 1 ≤ i → i ≤ job.size → s.loc (.worker i) ≠ WorkerLoc.failed := by
  have hexcl := exclusive_init job blank
  obtain ⟨order, hinv⟩ := inv_of_reachable hreply (abstract_reachable hexcl hs)
  refine ⟨hinv.aborted, fun i hi hin hl => ?_⟩
  have hworker := hinv.workerOk i hi hin
  have hview : (view (abstract s)).worker i = .failed := by
    refine (abstractLoc_of_not_recv (P := job.program) fun b k => ?_).trans hl
    simp [hl, Job.workerCode]
  rw [hview] at hworker
  exact hworker

/-- The control point of the parent belongs to the team's loops. -/
theorem parentOk_loc (hreply : job.Replies reply)
    (hs : Transition.Reachable next (job.init blank) s) : ParentOk job (s.loc .parent) := by
  have hexcl := exclusive_init job blank
  obtain ⟨s₁, hs₁, hp, hloc⟩ := exists_entry (t := Member.parent) hexcl rfl hs
  obtain ⟨order, hinv⟩ := inv_of_reachable hreply (abstract_reachable hexcl hs₁)
  have hview : (view (abstract s₁)).parent = s₁.loc .parent := abstractLoc_of_entry hp
  rw [← hloc, ← hview]
  exact hinv.parentOk

theorem received_own (hreply : job.Replies reply) (hown : job.own = true)
    (hs : Transition.Reachable next (job.init blank) s) (hi : 1 ≤ i) (hin : i ≤ job.size) :
    received s i = ownTaken job reply i (view (abstract s)) := by
  have hinvariant : (∃ order, Inv job reply order (view (abstract s))) ∧
      received s i = ownTaken job reply i (view (abstract s)) := by
    refine received_invariant (P := job.program)
      (I := fun a log => (∃ order, Inv job reply order (view a)) ∧
        log = ownTaken job reply i (view a))
      (exclusive_init job blank) hs ⟨⟨[], inv_init job reply blank⟩, ?_⟩ ?_
    · have hnone : received (job.init blank) i = [] := received_initial i
      have hno : ¬ i ≤ 0 := by omega
      exact hnone.trans (if_neg hno).symm
    · rintro t a a' log - ⟨⟨order, hinv⟩, rfl⟩ hnext
      obtain ⟨hrun, hm⟩ := move_of_step hnext
      cases t with
      | parent =>
          obtain ⟨hinv', htaken⟩ := hinv.ownTaken_parentMove (i := i) hown hrun hm
          exact ⟨hinv', htaken.symm⟩
      | worker k =>
          exact ⟨⟨order, hinv.workerMove hreply hrun hm⟩,
            (hinv.ownTaken_workerMove hown hi hin hm).symm⟩
  exact hinvariant.2

/-- What has been taken out of mailbox 0: a reply of each worker in `order`. -/
theorem received_shared (hreply : job.Replies reply) (hshared : job.own = false)
    (hs : Transition.Reachable next (job.init blank) s) :
    ∃ order, Inv job reply order (view (abstract s)) ∧ received s 0 = order.map reply := by
  have hexcl := exclusive_init job blank
  have hbox : ∀ k, job.replyBox k = 0 := fun k => by
    rw [Job.replyBox, hshared]
    rfl
  refine received_invariant (P := job.program)
    (I := fun a log => ∃ order, Inv job reply order (view a) ∧ log = order.map reply)
    hexcl hs ⟨[], inv_init job reply blank, received_initial 0⟩ ?_
  rintro t a a' log - ⟨order, hinv, rfl⟩ hnext
  obtain ⟨hrun, hm⟩ := move_of_step hnext
  cases t with
  | parent =>
      rcases hinv.parentMove hrun hm with ⟨i, acc, k, hl, hfull, -, hinv'⟩ | ⟨hl, hinv'⟩
      · rw [hbox] at hfull
        have hsome : a.box 0 = some (reply k) := hfull
        refine ⟨_, hinv', ?_⟩
        rw [takes_gather hl, hbox, if_pos rfl, hsome, List.map_append]
        rfl
      · exact ⟨_, hinv', by rw [takes_parent_of_ne hl, List.append_nil]⟩
  | worker i =>
      have hne : i ≠ 0 := by
        have hmem := hinv.mem_size (by rw [hrun]; simp)
        omega
      refine ⟨_, hinv.workerMove hreply hrun hm, ?_⟩
      by_cases hrecv : (view a).worker i = .receive
      · rw [takes_receive hrecv, if_neg hne, List.append_nil]
      · rw [takes_worker_of_ne hrecv, List.append_nil]

/-- A worker takes its own request. -/
theorem eq_request_of_copied (hreply : job.Replies reply)
    (hs : Transition.Reachable next (job.init blank) s) (hi : 1 ≤ i) (hin : i ≤ job.size)
    {m : Msg} (hl : s.loc (.worker i) = WorkerLoc.receive)
    (hp : s.phase (.worker i) = .copied m) : m = job.request i := by
  have hexcl := exclusive_init job blank
  obtain ⟨order, hinv⟩ := inv_of_reachable hreply (abstract_reachable hexcl hs)
  have hcode : job.program.code (.worker i) (s.loc (.worker i)) = .recv i .compute := by
    rw [hl]
    rfl
  have hview : (view (abstract s)).worker i = .compute m :=
    (of_copied (hexcl.of_reachable hs) hcode hp).2
  have hworker := hinv.workerOk i hi hin
  rw [hview] at hworker
  exact hworker.2.1

/-- Where the replies come back through the workers' own mailboxes the parent
takes the reply of worker `i` from mailbox `i`, out of which the worker has taken
its request before. -/
theorem eq_reply_of_copied (hreply : job.Replies reply) (hown : job.own = true)
    (hs : Transition.Reachable next (job.init blank) s) {m : Msg}
    (hl : s.loc .parent = ParentLoc.gather i acc) (hp : s.phase .parent = .copied m) :
    (1 ≤ i ∧ i ≤ job.size) ∧ s.returned i = [job.request i] ∧ m = reply i := by
  have hexcl := exclusive_init job blank
  have hok := parentOk_loc hreply hs
  rw [hl] at hok
  obtain ⟨hi, hin⟩ := hok
  have hcode : job.program.code .parent (s.loc .parent) =
      .recv i fun message => job.forGather (i + 1) (job.absorb acc message) := by
    rw [hl]
    exact congrArg (Instr.recv · _) (if_pos hown)
  obtain ⟨hreceived, hview⟩ := of_copied (hexcl.of_reachable hs) hcode hp
  have hparent : (view (abstract s)).parent = job.forGather (i + 1) (job.absorb acc m) := hview
  have htaken := received_own hreply hown hs hi hin
  have hgathered := (at_forGather (job.absorb acc m) hin).gathered
  -- the worker has taken its request, since it has replied
  obtain ⟨order, hinv⟩ := inv_of_reachable hreply (abstract_reachable hexcl hs)
  have hret : (view (abstract s)).worker i = .returned := by
    apply hinv.returned_of_mem
    rw [hinv.order_own hown, hparent, hgathered, List.mem_range'_1]
    omega
  rw [hreceived, ownTaken, hret, hparent, hgathered, if_pos le_rfl] at htaken
  obtain ⟨hreturned, hm⟩ := List.append_inj' htaken rfl
  exact ⟨⟨hi, hin⟩, hreturned, List.head_eq_of_cons_eq hm⟩

/-- What the parent has made of all the replies. -/
def ParentLoc.outcome? : ParentLoc Acc → Option Acc
  | .report acc => some acc
  | .joinLast _ acc => some acc
  | .finished acc => some acc
  | _ => none

theorem ParentLoc.of_outcome (job : Job Msg Acc) {l : ParentLoc Acc} (h : l.outcome? = some acc) :
    l.gathered job = job.size ∧ l.acc? = some acc ∧
      ∀ b k, job.parentCode l ≠ .recv b k := by
  cases l <;> simp_all [ParentLoc.outcome?, ParentLoc.gathered, ParentLoc.acc?, Job.parentCode]

/-- After the last reply the outcome is made of one reply of each worker. -/
theorem Inv.outcome {order : List ℕ} (h : Inv job reply order (view (abstract s)))
    (hacc : ParentLoc.outcome? (s.loc .parent) = some acc) :
    order.Perm (List.range' 1 job.size) ∧
      acc = (order.map reply).foldl job.absorb job.start := by
  obtain ⟨hgathered, hsome, hcode⟩ := ParentLoc.of_outcome job hacc
  have hview : (view (abstract s)).parent = s.loc .parent :=
    abstractLoc_of_not_recv (P := job.program) hcode
  rw [← hview] at hgathered hsome
  exact ⟨h.order_perm hgathered, h.acc_eq hsome⟩

theorem outcome_own (hreply : job.Replies reply) (hown : job.own = true)
    (hs : Transition.Reachable next (job.init blank) s)
    (hacc : ParentLoc.outcome? (s.loc .parent) = some acc) :
    acc = ((List.range' 1 job.size).map reply).foldl job.absorb job.start := by
  obtain ⟨order, hinv⟩ := inv_of_reachable hreply
    (abstract_reachable (exclusive_init job blank) hs)
  obtain ⟨hperm, heq⟩ := hinv.outcome hacc
  have hlen := hperm.length_eq
  rw [List.length_range'] at hlen
  rw [hinv.order_own hown, ← hinv.order_length, hlen] at heq
  exact heq

/-- Where the replies come back through mailbox 0 the parent takes one of each
worker. -/
theorem outcome_shared (hreply : job.Replies reply) (hshared : job.own = false)
    (hs : Transition.Reachable next (job.init blank) s)
    (hacc : ParentLoc.outcome? (s.loc .parent) = some acc) :
    ∃ order : List ℕ, order.Perm (List.range' 1 job.size) ∧
      s.returned 0 = order.map reply ∧
      acc = (order.map reply).foldl job.absorb job.start := by
  have hexcl := exclusive_init job blank
  obtain ⟨order, hinv, hreceived⟩ := received_shared hreply hshared hs
  obtain ⟨hperm, heq⟩ := hinv.outcome hacc
  refine ⟨order, hperm, ?_, heq⟩
  rw [← hreceived]
  -- nobody but the parent receives from mailbox 0
  refine (received_eq_returned fun t l hc => ?_).symm
  cases t with
  | parent => exact absurd hc ((ParentLoc.of_outcome job hacc).2.2 0 l)
  | worker i =>
      by_contra hp
      have hrun := ((hexcl.of_reachable hs).inside (.worker i) hp).1
      have hmem := hinv.mem_size (i := i) (by
        change s.status (.worker i) ≠ .new
        rw [hrun]
        simp)
      have hzero : i = 0 := by
        have hcode : job.workerCode i (s.loc (.worker i)) = .recv 0 l := hc
        cases hw : (show WorkerLoc Msg from s.loc (.worker i)) <;> simp_all [Job.workerCode]
      omega

end Outcome

end Team

end OperatingSystems
