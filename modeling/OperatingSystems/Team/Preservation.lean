import Mathlib.Data.List.Perm.Basic
import OperatingSystems.Team.Invariant

/-!
# Every step of a team keeps the invariant

The parent takes a reply either from the mailbox of a worker it has joined, so
that the request is no longer in it, or from mailbox 0, where requests never
are. Its other moves and those of the workers change one mailbox or one control
point at a time.
-/

namespace OperatingSystems

namespace Team

open OperatingSystems.Thread

variable {Msg Acc : Type}

section Steps

variable {job : Job Msg Acc} {reply : ℕ → Msg} {s s' : View Msg Acc} {i : ℕ} {order : List ℕ}

theorem ParentLoc.created_le {l : ParentLoc Acc} (h : ParentOk job l) :
    l.created job ≤ job.size := by
  cases l with
  | create i => exact le_trans (Nat.sub_le _ _) h.2
  | _ => exact le_refl _

/-- A worker that has been created is one of the team. -/
theorem Inv.mem_size (h : Inv job reply order s) (hrun : s.status (.worker i) ≠ .new) :
    1 ≤ i ∧ i ≤ job.size := by
  obtain ⟨hi, hle⟩ := (h.created i).mp hrun
  exact ⟨hi, le_trans hle (ParentLoc.created_le h.parentOk)⟩

/-- The lists stay as they are while no worker replies and no reply is taken. -/
theorem Order.congr {pending : List ℕ} (h : Order job reply s order pending)
    (hworker : ∀ i, s'.worker i = .returned ↔ s.worker i = .returned)
    (hbox : s'.box 0 = s.box 0) (hgathered : s'.parent.gathered job = s.parent.gathered job)
    (hacc : ∀ acc, s'.parent.acc? = some acc → s.parent.acc? = some acc ∨
      order = [] ∧ acc = job.start) : Order job reply s' order pending := by
  refine ⟨fun i => ?_, h.nodup, h.length.trans hgathered.symm, h.own, ?_, fun acc hsome => ?_⟩
  · rw [h.mem, hworker]
  · rw [hbox]
    exact h.shared
  · rcases hacc acc hsome with hsame | ⟨hnil, rfl⟩
    · exact h.acc acc hsame
    · rw [hnil]
      rfl

/-- The parent moves on without a message and without a new thread. -/
theorem Inv.parentMoves (h : Inv job reply order s) (hrun : s.status .parent = .running)
    {l : ParentLoc Acc} {j : ℕ}
    (hat : At job l (s.parent.created job) (s.parent.sent job) j (s.parent.gathered job))
    (hjoined : ∀ i, 1 ≤ i → i ≤ j → s.status (.worker i) = .exited)
    (hacc : ∀ acc, l.acc? = some acc → s.parent.acc? = some acc ∨
      s.parent.gathered job = 0 ∧ acc = job.start) :
    Inv job reply order { s with parent := l } := by
  obtain ⟨pending, horder⟩ := h.order
  refine ⟨hat.ok, fun i hi hi' => ?_, ⟨pending, ?_⟩, fun i => ?_, h.exited, ?_, h.aborted,
    .inl hrun⟩
  · rw [hat.sent, hat.gathered]
    exact h.workerOk i hi hi'
  · refine horder.congr (fun _ => Iff.rfl) rfl hat.gathered fun acc hsome => ?_
    refine (hacc acc hsome).imp_right fun ⟨hzero, hstart⟩ => ⟨?_, hstart⟩
    exact List.length_eq_zero_iff.mp (horder.length.trans hzero)
  · rw [hat.created]
    exact h.created i
  · rw [hat.joined]
    exact hjoined

theorem Inv.create (h : Inv job reply order s) (hrun : s.status .parent = .running)
    (hl : s.parent = .create i) :
    Inv job reply order { s with
      parent := job.forCreate (i + 1)
      status := Function.update s.status (.worker i) .running } := by
  obtain ⟨pending, horder⟩ := h.order
  have hok := h.parentOk
  rw [hl] at hok
  have hat := at_forCreate hok.2
  have hcreated := h.created
  have hsent : s.parent.sent job = 0 := by rw [hl]; rfl
  have hgathered : s.parent.gathered job = 0 := by rw [hl]; rfl
  have hi : s.parent.created job = i - 1 := by rw [hl]; rfl
  have hnone : (job.forCreate (i + 1)).acc? = none := by
    unfold Job.forCreate
    split <;> rfl
  refine ⟨hat.ok, fun j hj hj' => ?_, ⟨pending, ?_⟩, fun j => ?_, fun j hj => ?_,
    fun j hj hj' => ?_, h.aborted, .inl (by simpa using hrun)⟩
  · have hworker := h.workerOk j hj hj'
    rw [hsent, hgathered] at hworker
    rw [hat.sent, hat.gathered]
    exact hworker
  · refine horder.congr (fun _ => Iff.rfl) rfl (hat.gathered.trans hgathered.symm) ?_
    simp [hnone]
  · have hj := hcreated j
    rw [hi] at hj
    rw [hat.created]
    by_cases hji : j = i
    · subst hji
      simpa using hok.1
    · have hne : Member.worker j ≠ .worker i := by simp [hji]
      simp only [Function.update_of_ne hne]
      rw [hj]
      omega
  · have hji : j ≠ i := by
      rintro rfl
      simp at hj
    exact h.exited j (by simpa [hji] using hj)
  · rw [hat.joined] at hj'
    omega

theorem Inv.send (h : Inv job reply order s) (hrun : s.status .parent = .running)
    (hl : s.parent = .send i) :
    Inv job reply order { s with
      parent := job.forSend (i + 1)
      box := Function.update s.box i (some (job.request i)) } := by
  obtain ⟨pending, horder⟩ := h.order
  have hok := h.parentOk
  rw [hl] at hok
  obtain ⟨hi1, hin⟩ := hok
  have hat := at_forSend hin
  have hsent : s.parent.sent job = i - 1 := by rw [hl]; rfl
  have hgathered : s.parent.gathered job = 0 := by rw [hl]; rfl
  have hzero : (0 : ℕ) ≠ i := by omega
  refine ⟨hat.ok, fun j hj hj' => ?_, ⟨pending, ?_⟩, fun j => ?_, h.exited,
    fun j hj hj' => ?_, h.aborted, .inl hrun⟩
  · have hworker := h.workerOk j hj hj'
    rw [hsent, hgathered] at hworker
    rw [hat.sent, hat.gathered]
    cases hw : s.worker j <;> rw [hw] at hworker <;> simp only [WorkerOk] at hworker ⊢
    · by_cases hji : j = i
      · subst hji
        simp
      · have hiff : j ≤ i ↔ j ≤ i - 1 := by omega
        simp only [Function.update_of_ne hji, hiff, hworker]
    all_goals
      obtain ⟨hle, hrest⟩ := hworker
      have hji : j ≠ i := by omega
      refine ⟨by omega, ?_⟩
      simpa only [Function.update_of_ne hji] using hrest
  · refine horder.congr (fun _ => Iff.rfl) (Function.update_of_ne hzero _ _)
      (hat.gathered.trans hgathered.symm) fun acc hacc => .inr ⟨?_, ?_⟩
    · exact List.length_eq_zero_iff.mp (horder.length.trans hgathered)
    · dsimp only [Job.forSend] at hacc
      split at hacc
      · simp [ParentLoc.acc?] at hacc
      · split at hacc <;> simp [ParentLoc.acc?] at hacc
        exact hacc.symm
  · rw [hat.created]
    have hcreated := h.created j
    rwa [hl] at hcreated
  · rw [hat.joined] at hj'
    omega

/-- Where the replies come back through the workers' own mailboxes, the worker whose
reply is taken next has been joined, so its reply is in its mailbox. -/
theorem Inv.box_of_gather (h : Inv job reply order s) {acc : Acc} (hl : s.parent = .gather i acc)
    (hown : job.own = true) : s.worker i = .returned ∧ s.box i = some (reply i) := by
  have hok := h.parentOk
  rw [hl] at hok
  obtain ⟨hi1, hin⟩ := hok
  have hgathered : s.parent.gathered job = i - 1 := by rw [hl]; rfl
  have hjoined : s.parent.joined job = job.size := by
    rw [hl]
    exact if_pos hown
  have hret := h.exited i (h.joined i hi1 (hjoined ▸ hin))
  have hworker := h.workerOk i hi1 hin
  have hlt : i - 1 < i := by omega
  rw [hret] at hworker
  simp only [WorkerOk, hown, hgathered, hlt, and_self, if_true] at hworker
  exact ⟨hret, hworker.2⟩

/-- The reply that the parent takes next is that of a worker whose reply is
pending: the next worker, or the one whose reply is in mailbox 0. -/
theorem Inv.pending_of_box (h : Inv job reply order s) {acc : Acc} {m : Msg}
    (hl : s.parent = .gather i acc) (hbox : s.box (job.replyBox i) = some m)
    {pending : List ℕ} (horder : Order job reply s order pending) :
    ∃ j ∈ pending, m = reply j ∧ (job.own = true → j = i) ∧
      (job.own = false → pending = [j]) := by
  have hok := h.parentOk
  rw [hl] at hok
  obtain ⟨hi1, hin⟩ := hok
  have hgathered : s.parent.gathered job = i - 1 := by rw [hl]; rfl
  cases hown : job.own with
  | true =>
      obtain ⟨hret, hfull⟩ := h.box_of_gather hl hown
      rw [Job.replyBox, if_pos hown, hfull] at hbox
      have hmem := (horder.mem i).mpr ⟨⟨hi1, hin⟩, hret⟩
      refine ⟨i, (List.mem_append.mp hmem).resolve_left fun hi => ?_,
        (Option.some.inj hbox).symm, fun _ => rfl, fun hno => absurd hno (by simp)⟩
      rw [horder.own hown, horder.length, hgathered, List.mem_range'_1] at hi
      omega
  | false =>
      obtain ⟨hhead, hlen⟩ := horder.shared hown
      rw [Job.replyBox, hown, if_neg (by simp), hhead] at hbox
      cases pending with
      | nil => simp at hbox
      | cons j rest =>
          have hrest : rest = [] := by
            apply List.length_eq_zero_iff.mp
            rw [List.length_cons] at hlen
            omega
          rw [List.head?_cons, Option.map_some] at hbox
          exact ⟨j, List.mem_cons_self, (Option.some.inj hbox).symm,
            fun hyes => absurd hyes (by simp), fun _ => by rw [hrest]⟩

/-- The worker whose reply is taken goes from the pending ones to the end of the
order. -/
theorem Order.gather {pending : List ℕ} (horder : Order job reply s order pending) {acc : Acc}
    {k : ℕ} (hl : s.parent = .gather i acc) (hi1 : 1 ≤ i) (hin : i ≤ job.size) (hk : k ∈ pending)
    (hkown : job.own = true → k = i) (hkshared : job.own = false → pending = [k]) :
    Order job reply { s with
      parent := job.forGather (i + 1) (job.absorb acc (reply k))
      box := Function.update s.box (job.replyBox i) none } (order ++ [k]) (pending.erase k) := by
  have hat := at_forGather (job.absorb acc (reply k)) hin
  have hlen : order.length = i - 1 := by rw [horder.length, hl]; rfl
  have hperm : List.Perm ((order ++ [k]) ++ pending.erase k) (order ++ pending) := by
    rw [List.append_assoc]
    exact List.Perm.append_left order (List.perm_cons_erase hk).symm
  refine ⟨fun j => ?_, (hperm.nodup_iff).mpr horder.nodup, ?_, fun hown => ?_, fun hown => ?_,
    fun acc' hacc => ?_⟩
  · rw [hperm.mem_iff]
    exact horder.mem j
  · rw [hat.gathered, List.length_append, hlen, List.length_singleton]
    omega
  · rw [List.length_append, List.length_singleton, List.range'_concat, ← horder.own hown,
      hlen, hkown hown]
    congr 2
    omega
  · rw [hkshared hown]
    simp [Job.replyBox, hown]
  · have hsome : acc' = job.absorb acc (reply k) := by
      dsimp only [Job.forGather] at hacc
      split at hacc <;> exact (Option.some.inj hacc).symm
    have hold := horder.acc acc (by rw [hl]; rfl)
    rw [hsome, hold, List.map_append, List.foldl_append]
    rfl

/-- The workers and their mailboxes after a reply has been taken. -/
theorem Inv.workerOk_gather (h : Inv job reply order s) {acc : Acc}
    (hl : s.parent = .gather i acc) (hin : i ≤ job.size)
    (hret : job.own = true → s.worker i = .returned) {j : ℕ} (hj : 1 ≤ j) (hj' : j ≤ job.size) :
    WorkerOk job reply job.size i j (Function.update s.box (job.replyBox i) none j)
      (s.worker j) := by
  have hworker := h.workerOk j hj hj'
  have hsent : s.parent.sent job = job.size := by rw [hl]; rfl
  have hgathered : s.parent.gathered job = i - 1 := by rw [hl]; rfl
  rw [hsent, hgathered] at hworker
  by_cases hbj : j = job.replyBox i
  · -- the mailbox is the worker's own, and the worker has replied
    have hown : job.own = true := by
      by_contra hno
      rw [Job.replyBox, if_neg hno] at hbj
      omega
    obtain rfl : j = i := by rwa [Job.replyBox, if_pos hown] at hbj
    rw [hret hown]
    exact ⟨hin, by simp [← hbj]⟩
  · rw [Function.update_of_ne hbj]
    cases hw : s.worker j with
    | returned =>
        rw [hw] at hworker
        refine ⟨hworker.1, hworker.2.trans (if_congr (and_congr_right fun hown => ?_) rfl rfl)⟩
        rw [Job.replyBox, if_pos hown] at hbj
        omega
    | _ =>
        rw [hw] at hworker
        exact hworker

theorem Inv.gather (h : Inv job reply order s) (hrun : s.status .parent = .running) {acc : Acc}
    {m : Msg} (hl : s.parent = .gather i acc) (hbox : s.box (job.replyBox i) = some m) :
    ∃ k, m = reply k ∧ (job.own = true → k = i) ∧ Inv job reply (order ++ [k]) { s with
      parent := job.forGather (i + 1) (job.absorb acc m)
      box := Function.update s.box (job.replyBox i) none } := by
  obtain ⟨pending, horder⟩ := h.order
  obtain ⟨k, hk, rfl, hkown, hkshared⟩ := h.pending_of_box hl hbox horder
  have hok := h.parentOk
  rw [hl] at hok
  obtain ⟨hi1, hin⟩ := hok
  have hat := at_forGather (job.absorb acc (reply k)) hin
  have hret : s.worker k = .returned :=
    ((horder.mem k).mp (List.mem_append_right _ hk)).2
  refine ⟨k, rfl, hkown, hat.ok, fun j hj hj' => ?_,
    ⟨_, horder.gather hl hi1 hin hk hkown hkshared⟩, fun j => ?_, h.exited,
    fun j hj hj' => ?_, h.aborted, .inl hrun⟩
  · rw [hat.sent, hat.gathered]
    exact h.workerOk_gather hl hin (fun hown => hkown hown ▸ hret) hj hj'
  · rw [hat.created]
    have hcreated := h.created j
    rwa [hl] at hcreated
  · rw [hat.joined] at hj'
    refine h.joined j hj ?_
    rw [hl]
    exact hj'

/-- The workers that have exited once worker `i` has been joined too. -/
theorem Inv.exited_of_join (h : Inv job reply order s) (hjoined : s.parent.joined job = i - 1)
    (hexited : s.status (.worker i) = .exited) {j : ℕ} (hj : 1 ≤ j) (hj' : j ≤ i) :
    s.status (.worker j) = .exited := by
  by_cases hji : j = i
  · exact hji ▸ hexited
  · exact h.joined j hj (by omega)

/-- Every move of the parent keeps the invariant, with one more worker in the
order where it takes a reply. -/
theorem Inv.parentMove (h : Inv job reply order s) (hrun : s.status .parent = .running)
    (hm : ParentMove job s s') :
    (∃ i acc k, s.parent = .gather i acc ∧ s.box (job.replyBox i) = some (reply k) ∧
        (job.own = true → k = i) ∧ Inv job reply (order ++ [k]) s') ∨
      (∀ i acc, s.parent ≠ .gather i acc) ∧ Inv job reply order s' := by
  cases hm with
  | gather i acc m hl hbox =>
      obtain ⟨k, rfl, hown, hinv⟩ := h.gather hrun hl hbox
      exact .inl ⟨i, acc, k, hl, hbox, hown, hinv⟩
  | create i hl => exact .inr ⟨by simp [hl], h.create hrun hl⟩
  | send i hl hbox => exact .inr ⟨by simp [hl], h.send hrun hl⟩
  | joinFirst i hl hexited =>
      have hok := h.parentOk
      rw [hl] at hok
      obtain ⟨hi1, hin, hown⟩ := hok
      have hat := at_forJoinFirst hin hown
      refine .inr ⟨by simp [hl], h.parentMoves hrun (j := i) (by rw [hl]; exact hat)
        (fun j hj hj' => h.exited_of_join (by rw [hl]; rfl) hexited hj hj')
        fun acc hacc => .inr ⟨by rw [hl]; rfl, ?_⟩⟩
      unfold Job.forJoinFirst at hacc
      split at hacc <;> simp [ParentLoc.acc?] at hacc
      exact hacc.symm
  | report acc hl =>
      have hat := at_afterReport job acc
      refine .inr ⟨by simp [hl], h.parentMoves hrun (j := s.parent.joined job)
        (by rw [hl]; exact hat) h.joined fun acc' hacc => .inl ?_⟩
      rw [hl]
      unfold Job.afterReport at hacc
      split at hacc <;> exact hacc
  | joinLast i acc hl hexited =>
      have hok := h.parentOk
      rw [hl] at hok
      obtain ⟨hi1, hin, hown⟩ := hok
      have hat := at_forJoinLast acc hin hown
      refine .inr ⟨by simp [hl], h.parentMoves hrun (j := i) (by rw [hl]; exact hat)
        (fun j hj hj' => h.exited_of_join (by rw [hl]; rfl) hexited hj hj')
        fun acc' hacc => .inl ?_⟩
      rw [hl]
      unfold Job.forJoinLast at hacc
      split at hacc <;> exact hacc
  | exit acc hl =>
      refine .inr ⟨by simp [hl], h.parentOk, h.workerOk, ?_, fun j => ?_, fun j hj => ?_,
        fun j hj hj' => ?_, h.aborted, .inr ⟨by simp, acc, hl⟩⟩
      · obtain ⟨pending, horder⟩ := h.order
        exact ⟨pending, horder.congr (fun _ => Iff.rfl) rfl rfl fun _ hacc => .inl hacc⟩
      · simpa using h.created j
      · exact h.exited j (by simpa using hj)
      · simpa using h.joined j hj hj'

/-- A worker moves on, and leaves the mailboxes of the others alone. -/
theorem Inv.workerMoves (h : Inv job reply order s) (hrun : s.status (.worker i) = .running)
    {l : WorkerLoc Msg} {box : ℕ → Option Msg}
    (hworker : WorkerOk job reply (s.parent.sent job) (s.parent.gathered job) i (box i) l)
    (hbox : ∀ j, 1 ≤ j → j ≠ i → box j = s.box j)
    (horder : ∃ pending, Order job reply
      { s with worker := Function.update s.worker i l, box := box } order pending) :
    Inv job reply order { s with worker := Function.update s.worker i l, box := box } := by
  refine ⟨h.parentOk, fun j hj hj' => ?_, horder, h.created, fun j hj => ?_, h.joined, h.aborted,
    h.parent⟩
  · by_cases hji : j = i
    · subst hji
      simpa using hworker
    · simpa only [Function.update_of_ne hji, hbox j hj hji] using h.workerOk j hj hj'
  · have hji : j ≠ i := by
      rintro rfl
      rw [hrun] at hj
      contradiction
    exact (Function.update_of_ne hji _ _).trans (h.exited j hj)

/-- A worker that has not replied moves on without a reply. -/
theorem Order.workerMoves {pending : List ℕ} (h : Order job reply s order pending)
    {l : WorkerLoc Msg} {box : ℕ → Option Msg} (hold : s.worker i ≠ .returned)
    (hnew : l ≠ .returned) (hbox : box 0 = s.box 0) :
    Order job reply { s with worker := Function.update s.worker i l, box := box }
      order pending := by
  refine h.congr (fun j => ?_) hbox rfl fun _ hacc => .inl hacc
  by_cases hji : j = i
  · subst hji
    simp [hold, hnew]
  · simp [hji]

/-- A reply that is sent is pending. -/
theorem Order.replies {pending : List ℕ} (h : Order job reply s order pending) (hi1 : 1 ≤ i)
    (hin : i ≤ job.size) (hnot : i ∉ order ++ pending) (hbox : s.box (job.replyBox i) = none) :
    Order job reply { s with
      worker := Function.update s.worker i .returned
      box := Function.update s.box (job.replyBox i) (some (reply i)) } order (pending ++ [i]) := by
  refine ⟨fun j => ?_, ?_, h.length, h.own, fun hno => ?_, h.acc⟩
  · rw [← List.append_assoc, List.mem_append, h.mem, List.mem_singleton]
    by_cases hji : j = i
    · subst hji
      simp [hi1, hin]
    · simp [hji]
  · rw [← List.append_assoc]
    exact List.nodup_append.mpr ⟨h.nodup, List.nodup_singleton i, fun a ha b hb => by
      rw [List.mem_singleton.mp hb]
      exact fun heq => hnot (heq ▸ ha)⟩
  · have hzero : job.replyBox i = 0 := by simp [Job.replyBox, hno]
    obtain ⟨hhead, -⟩ := h.shared hno
    rw [hzero] at hbox
    rw [hbox] at hhead
    have hnil : pending = [] := by
      cases pending with
      | nil => rfl
      | cons j rest => simp at hhead
    simp [hzero, hnil]

/-- A worker replies. -/
theorem Inv.replies (h : Inv job reply order s) (hrun : s.status (.worker i) = .running) {m : Msg}
    (hl : s.worker i = .reply m) (hbox : s.box (job.replyBox i) = none) :
    Inv job reply order { s with
      worker := Function.update s.worker i .returned
      box := Function.update s.box (job.replyBox i) (some m) } := by
  obtain ⟨hi1, hin⟩ := h.mem_size (by rw [hrun]; simp)
  obtain ⟨pending, horder⟩ := h.order
  have hown := h.workerOk i hi1 hin
  rw [hl] at hown
  obtain ⟨hsent, rfl, hempty⟩ := hown
  have hnot : i ∉ order ++ pending := fun hmem => by
    have hret := ((horder.mem i).mp hmem).2
    rw [hl] at hret
    contradiction
  -- the parent has not come to this worker yet
  have hlt : job.own = true → s.parent.gathered job < i := by
    intro hyes
    by_contra hge
    apply hnot
    rw [horder.own hyes, horder.length]
    exact List.mem_append_left _ (List.mem_range'_1.mpr ⟨hi1, by omega⟩)
  refine h.workerMoves hrun ⟨hsent, ?_⟩ (fun j hj hji => Function.update_of_ne ?_ _ _)
    ⟨_, horder.replies hi1 hin hnot hbox⟩
  · cases hyes : job.own with
    | true => simp [Job.replyBox, hyes, hlt hyes]
    | false =>
        have hzero : i ≠ 0 := by omega
        simp [Job.replyBox, hyes, hzero, hempty]
  · unfold Job.replyBox
    split <;> omega

/-- A worker ends. -/
theorem Inv.exits (h : Inv job reply order s) (hrun : s.status (.worker i) = .running)
    (hl : s.worker i = .returned) :
    Inv job reply order { s with status := Function.update s.status (.worker i) .exited } := by
  obtain ⟨pending, horder⟩ := h.order
  refine ⟨h.parentOk, h.workerOk, ⟨pending, horder.congr (fun _ => Iff.rfl) rfl rfl
    fun _ hacc => .inl hacc⟩, fun j => ?_, fun j hj => ?_, fun j hj hj' => ?_, h.aborted,
    by simpa using h.parent⟩
  · have hcreated := h.created j
    by_cases hji : j = i
    · subst hji
      simp only [hrun] at hcreated
      simpa using hcreated
    · simpa [hji] using hcreated
  · by_cases hji : j = i
    · exact hji ▸ hl
    · exact h.exited j (by simpa [hji] using hj)
  · by_cases hji : j = i
    · subst hji
      simp
    · simpa [hji] using h.joined j hj hj'

theorem Inv.workerMove (h : Inv job reply order s) (hreply : job.Replies reply)
    (hrun : s.status (.worker i) = .running) (hm : WorkerMove job i s s') :
    Inv job reply order s' := by
  obtain ⟨hi1, hin⟩ := h.mem_size (by rw [hrun]; simp)
  obtain ⟨pending, horder⟩ := h.order
  have hown := h.workerOk i hi1 hin
  have hzero : (0 : ℕ) ≠ i := by omega
  cases hm with
  | receive m hl hbox =>
      rw [hl, hbox] at hown
      have hsent : i ≤ s.parent.sent job ∧ m = job.request i := by
        by_contra hno
        simp only [WorkerOk] at hown
        split at hown
        · rename_i hle
          exact hno ⟨hle, Option.some.inj hown⟩
        · contradiction
      refine h.workerMoves hrun ⟨hsent.1, hsent.2, Function.update_self _ _ _⟩
        (fun j _ hji => Function.update_of_ne hji _ _) ⟨pending, ?_⟩
      exact horder.workerMoves (by simp [hl]) (by simp) (Function.update_of_ne hzero _ _)
  | compute m m' hl hwork =>
      rw [hl] at hown
      obtain ⟨hsent, rfl, hempty⟩ := hown
      rw [hreply i hi1 hin] at hwork
      obtain rfl := Option.some.inj hwork
      exact h.workerMoves hrun ⟨hsent, rfl, hempty⟩ (fun _ _ _ => rfl)
        ⟨pending, horder.workerMoves (by simp [hl]) (by simp) rfl⟩
  | fail m hl hwork =>
      rw [hl] at hown
      obtain ⟨hsent, rfl, hempty⟩ := hown
      rw [hreply i hi1 hin] at hwork
      contradiction
  | reply m hl hbox => exact h.replies hrun hl hbox
  | exit hl => exact h.exits hrun hl
  | abort hl =>
      rw [hl] at hown
      exact hown.elim

theorem inv_init (job : Job Msg Acc) (reply : ℕ → Msg) (blank : Msg) :
    Inv job reply [] (view (abstract (job.init blank))) := by
  have hn := job.one_le_size
  refine ⟨⟨le_refl _, hn⟩, fun i hi _ => ?_, ⟨[], ?_⟩, fun i => ?_, fun i hi => ?_,
    fun i hi hi' => ?_, rfl, .inl rfl⟩
  · have hno : ¬ i ≤ 0 := by omega
    exact (if_neg hno).symm
  · refine ⟨fun i => ?_, List.nodup_nil, rfl, fun _ => rfl, fun _ => ⟨rfl, Nat.zero_le _⟩,
      fun acc hacc => ?_⟩
    · refine iff_of_false (by simp) fun hand => ?_
      have hret : WorkerLoc.receive = WorkerLoc.returned := hand.2
      contradiction
    · contradiction
  · change (if Member.worker i = .parent then Status.running else .new) ≠ .new ↔ 1 ≤ i ∧ i ≤ 0
    simp
    omega
  · change (if Member.worker i = .parent then Status.running else .new) = .exited at hi
    simp at hi
  · change i ≤ 0 at hi'
    omega

/-- Every reachable state satisfies the invariant. -/
theorem inv_of_reachable (hreply : job.Replies reply) {blank : Msg} {a : Atomic job.program}
    (ha : Transition.Reachable atomicNext (abstract (job.init blank)) a) :
    ∃ order, Inv job reply order (view a) := by
  refine ha.invariant (I := fun a => ∃ order, Inv job reply order (view a))
    ⟨[], inv_init job reply blank⟩ ?_
  rintro t a a' _ ⟨order, hinv⟩ hnext
  obtain ⟨hrun, hm⟩ := move_of_step hnext
  cases t with
  | parent =>
      rcases hinv.parentMove hrun hm with ⟨i, acc, k, -, -, -, hinv'⟩ | ⟨-, hinv'⟩
      · exact ⟨_, hinv'⟩
      · exact ⟨_, hinv'⟩
  | worker i => exact ⟨_, hinv.workerMove hreply hrun hm⟩

end Steps

end Team

end OperatingSystems
