import Babeltrace.ItemSeqRefine

/-!
# Seeking a packet

`ItemSeqIter::seekPkt()` drops the buffer, but it leaves the offset of the buffer as is: the iterator
then believes that it has this many bits of the packet.
-/
namespace Babeltrace.ItemSeq
open Machine

def seekPkt (pktOffset : ℕ) (s : Iter) : Iter :=
  { s with curPktOffsetInItemSeq := pktOffset, buf := [], state := .tryBeginReadPkt }

section
variable {tc : TraceCls} {P : Medium → Prop} {items : List Item} {o : Outcome Exc}

/-- The state machine and its agenda have the same runs, whatever the media. -/
theorem run_new_iff_agenda (tc : TraceCls) (P : Medium → Prop) (items : List Item)
    (o : Outcome Exc) : Run tc (fun _ => P) {} items o ↔
      Machine.Run (Agenda.reply tc) (fun _ => P) ⟨{}, [], .init⟩ items o := by
  have hrel : Rel {} ⟨{}, [], .init⟩ := .phase (.init rfl)
  exact run_iff_runs.trans ((runs_agenda hrel).trans run_iff_runs.symm)

theorem seekPkt_run_iff_runs (pktOffset : ℕ) (s : Iter) :
    Run tc (fun _ => P) (seekPkt pktOffset s) items o ↔
      Runs (Agenda.reply tc) (fun _ => P) ⟨(seekPkt pktOffset s).toDec, [], .tryBeginPkt⟩ items o := by
  have hrel : Rel (seekPkt pktOffset s) ⟨(seekPkt pktOffset s).toDec, [], .tryBeginPkt⟩ :=
    .phase (.tryBeginPkt rfl)
  exact run_iff_runs.trans (runs_agenda hrel)

/-- With an offset left, the packet begins without any data. -/
theorem reply_seekPkt_of_pos (m : Medium) (pktOffset : ℕ) {s : Iter} (h : 0 < s.bufOffsetInCurPkt) :
    ∃ a, Agenda.reply tc m ⟨(seekPkt pktOffset s).toDec, [], .tryBeginPkt⟩ = .item .pktBegin a := by
  have hlen : (resetForNewPkt (seekPkt pktOffset s).toDec).remainingBufLen ≠ 0 := by
    simp [Dec.remainingBufLen, resetForNewPkt, seekPkt, safeSub]
    omega
  refine ⟨⟨resetForNewPkt (seekPkt pktOffset s).toDec, [], .beginPktContent⟩, ?_⟩
  simp only [Agenda.reply, doPhase, if_neg hlen]
  rfl

/-- From any state, an iterator which seeks a packet goes on like a new one which has the same saved
key values, whatever the media, exactly when its buffer had the offset zero. -/
theorem seekPkt_like_new_iff (tc : TraceCls) (pktOffset : ℕ) (s : Iter) :
    (∀ (P : Medium → Prop) items o, Run tc (fun _ => P) (seekPkt pktOffset s) items o ↔
      Run tc (fun _ => P) (seekPkt pktOffset { savedKeyVals := s.savedKeyVals }) items o) ↔
    s.bufOffsetInCurPkt = 0 := by
  constructor
  · intro h
    by_contra hpos
    -- without any data, a new iterator ends at once
    have hnew : Runs (Agenda.reply tc) (fun _ => (· = fun _ _ => .noData))
        ⟨(seekPkt pktOffset { savedKeyVals := s.savedKeyVals }).toDec, [], .tryBeginPkt⟩ []
        .ended :=
      .ended rfl rfl
    have hruns := (seekPkt_run_iff_runs pktOffset s).mp
      ((h _ [] .ended).mpr ((seekPkt_run_iff_runs pktOffset _).mpr hnew))
    cases hruns with
    | «continue» _ hreply | again _ hreply | ended _ hreply =>
      obtain ⟨a, ha⟩ := reply_seekPkt_of_pos _ pktOffset (Nat.pos_of_ne_zero hpos)
      cases ha.symm.trans hreply
  · intro h P items o
    have hdec : resetForNewPkt (seekPkt pktOffset s).toDec =
        resetForNewPkt (seekPkt pktOffset { savedKeyVals := s.savedKeyVals }).toDec := by
      simp only [resetForNewPkt, seekPkt, h]
    have hreply (m : Medium) : Agenda.reply tc m ⟨(seekPkt pktOffset s).toDec, [], .tryBeginPkt⟩ =
        Agenda.reply tc m
          ⟨(seekPkt pktOffset { savedKeyVals := s.savedKeyVals }).toDec, [], .tryBeginPkt⟩ := by
      simp only [Agenda.reply, doPhase, hdec]
    rw [seekPkt_run_iff_runs, seekPkt_run_iff_runs]
    exact ⟨.of_step_eq (fun _ hm => hm) hreply,
      .of_step_eq (fun _ hm => hm) fun m => (hreply m).symm⟩

end

end Babeltrace.ItemSeq
