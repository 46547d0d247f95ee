import Mathlib
import Babeltrace.Muxer

/-!
# The muxer merges its upstream messages

Each upstream message iterator which isn't ended is either in the heap, which is ordered by
timestamps, or to reload; and no timestamp which remains is less than one which was returned.
-/
namespace Babeltrace.Muxer
open TraceIr Babeltrace.Graph

/-! ## Upstream message iterators -/

namespace UpstreamMsgIter

variable {u u' : UpstreamMsgIter}

def remaining (u : UpstreamMsgIter) : List Msg := u.msgs ++ scriptMsgs u.script

def work (u : UpstreamMsgIter) : ℕ :=
  u.msgs.length + (u.script.map fun reply => reply.batch.length + 1).sum

def key (u : UpstreamMsgIter) : WithBot ℤ := u.msgTs

def Loaded (u : UpstreamMsgIter) : Prop :=
  ∃ msg rest, u.msgs = msg :: rest ∧ u.msgTs = msg.time

def MayFail (u : UpstreamMsgIter) : Prop :=
  .error ∈ u.script ∨ ∃ msg ∈ u.remaining, msg.clockSnapshot ≠ none ∧ msg.time = none

theorem cacheTs_cases (u : UpstreamMsgIter) :
    u.cacheTs.2.msgs = u.msgs ∧ u.cacheTs.2.script = u.script ∧
    ((u.cacheTs.1 = .ok .more ∧ u.cacheTs.2.Loaded) ∨ (u.cacheTs.1 = .ok .noMore ∧ u.msgs = []) ∨
      (u.cacheTs.1 = .error .error ∧ u.MayFail)) := by
  unfold cacheTs
  split
  · rename_i hmsgs
    exact ⟨rfl, rfl, .inr (.inl ⟨rfl, hmsgs⟩)⟩
  · rename_i msg rest hmsgs
    split
    · rename_i hcs
      refine ⟨rfl, rfl, .inl ⟨rfl, msg, rest, hmsgs, ?_⟩⟩
      simp only [Msg.time, hcs, Option.bind_none]
    · rename_i cs hcs
      split
      · rename_i hns
        refine ⟨rfl, rfl, .inr (.inr ⟨rfl, .inr ⟨msg, ?_, ?_, ?_⟩⟩)⟩
        · simp [remaining, hmsgs]
        · simp [hcs]
        · simp [Msg.time, hcs, hns]
      · rename_i ns hns
        refine ⟨rfl, rfl, .inl ⟨rfl, msg, rest, hmsgs, ?_⟩⟩
        simp only [Msg.time, hcs, Option.bind_some, hns]

structure Reloaded (u : UpstreamMsgIter) (r : Except Exc ReloadStatus × UpstreamMsgIter) : Prop where
  remaining : r.2.remaining = u.remaining
  work : r.2.work ≤ u.work
  mayFail : r.2.MayFail → u.MayFail
  cases : (r.1 = .ok .more ∧ r.2.Loaded) ∨ (r.1 = .ok .noMore ∧ u.remaining = []) ∨
    (r.1 = .error .tryAgain ∧ r.2.work < u.work) ∨ (r.1 = .error .error ∧ u.MayFail)

theorem reloaded_of_eq (hmsgs : u'.msgs = u.msgs) (hscript : u'.script = u.script)
    {r : Except Exc ReloadStatus} (h : (r = .ok .more ∧ u'.Loaded) ∨
      (r = .ok .noMore ∧ u.remaining = []) ∨ (r = .error .error ∧ u.MayFail)) :
    Reloaded u (r, u') := by
  have hremaining : u'.remaining = u.remaining := by
    rw [UpstreamMsgIter.remaining, hmsgs, hscript, ← UpstreamMsgIter.remaining]
  refine ⟨hremaining, by simp only [work, hmsgs, hscript, Nat.le_refl], fun hfail => ?_, ?_⟩
  · rwa [MayFail, hscript, hremaining, ← MayFail] at hfail
  · rcases h with h | h | h
    · exact .inl h
    · exact .inr (.inl h)
    · exact .inr (.inr (.inr h))

theorem Reloaded.of_batch {first : Msg} {others : List Msg} {script : List Reply}
    (hempty : u.msgs = []) (hscript : u.script = .msgs first others :: script)
    {r : Except Exc ReloadStatus × UpstreamMsgIter}
    (h : Reloaded ⟨script, first :: others, u.msgTs⟩ r) : Reloaded u r := by
  have hremaining : (⟨script, first :: others, u.msgTs⟩ : UpstreamMsgIter).remaining = u.remaining := by
    simp [UpstreamMsgIter.remaining, hempty, hscript, scriptMsgs, Reply.batch]
  have hwork : (⟨script, first :: others, u.msgTs⟩ : UpstreamMsgIter).work < u.work := by
    simp [UpstreamMsgIter.work, hempty, hscript, Reply.batch]
  have hfail : (⟨script, first :: others, u.msgTs⟩ : UpstreamMsgIter).MayFail → u.MayFail := by
    rintro (herror | hmsg)
    · exact .inl (by rw [hscript]; exact List.mem_cons_of_mem _ herror)
    · rw [hremaining] at hmsg
      exact .inr hmsg
  refine ⟨h.remaining.trans hremaining, h.work.trans hwork.le, fun hr => hfail (h.mayFail hr), ?_⟩
  rcases h.cases with h | ⟨h, hnil⟩ | ⟨h, hlt⟩ | ⟨h, hr⟩
  · exact .inl h
  · exact .inr (.inl ⟨h, hremaining.symm.trans hnil⟩)
  · exact .inr (.inr (.inl ⟨h, hlt.trans hwork⟩))
  · exact .inr (.inr (.inr ⟨h, hfail hr⟩))

theorem reload_reloaded (u : UpstreamMsgIter) : Reloaded u u.reload := by
  -- without a new batch
  have hcache : ∀ u : UpstreamMsgIter, u.msgs ≠ [] ∨ u.script = [] → Reloaded u u.cacheTs := by
    intro u hu
    obtain ⟨hmsgs, hscript, hcases⟩ := u.cacheTs_cases
    refine reloaded_of_eq hmsgs hscript ?_
    rcases hcases with h | ⟨h, hnil⟩ | h
    · exact .inl h
    · have hscript := hu.resolve_left fun hne => hne hnil
      exact .inr (.inl ⟨h, by simp [remaining, hnil, hscript, scriptMsgs]⟩)
    · exact .inr (.inr h)
  unfold reload
  split
  · rename_i hempty
    unfold tryGetNewMsgs
    cases hscript : u.script with
    | nil => exact hcache u (.inr hscript)
    | cons reply script =>
      cases reply with
      | msgs first others =>
        exact (hcache _ (.inl (List.cons_ne_nil _ _))).of_batch hempty hscript
      | again =>
        have hremaining : ({ u with script } : UpstreamMsgIter).remaining = u.remaining := by
          simp [remaining, hscript, scriptMsgs, Reply.batch]
        have hwork : ({ u with script } : UpstreamMsgIter).work < u.work := by
          simp [work, hscript]
        refine ⟨hremaining, hwork.le, ?_, .inr (.inr (.inl ⟨rfl, hwork⟩))⟩
        rintro (herror | hmsg)
        · exact .inl (by rw [hscript]; exact List.mem_cons_of_mem _ herror)
        · exact .inr (hremaining ▸ hmsg)
      | error =>
        have hfail : u.MayFail := .inl (by rw [hscript]; exact List.mem_cons_self)
        refine ⟨?_, ?_, fun _ => hfail, .inr (.inr (.inr ⟨rfl, hfail⟩))⟩
        · simp [remaining, hscript, scriptMsgs, Reply.batch]
        · simp [work, hscript]
  · rename_i hne
    exact hcache u (.inl hne)

end UpstreamMsgIter

variable {ι V : Type} {tieBreak : Msg → Msg → Bool}

theorem older_respects (it : MsgIter ι V) :
    PrioHeap.Respects (it.gt tieBreak) fun i => (it.upstreams i).key := by
  intro a b
  simp only [MsgIter.gt, older, UpstreamMsgIter.key]
  cases hA : (it.upstreams a).msgTs with
  | none =>
    refine ⟨fun _ => bot_le, fun h => ?_⟩
    cases hB : (it.upstreams b).msgTs with
    | none => exact bot_le
    | some tsB => simp [hB] at h
  | some tsA =>
    cases hB : (it.upstreams b).msgTs with
    | none => exact ⟨fun h => by simp at h, fun _ => bot_le⟩
    | some tsB =>
      refine ⟨fun h => WithBot.coe_le_coe.mpr ?_, fun h => WithBot.coe_le_coe.mpr ?_⟩
      · simp only at h
        split at h
        · omega
        · split at h
          · cases h
          · omega
      · simp only at h
        split at h
        · cases h
        · omega

variable [DecidableEq ι] {validate : V → Msg → Option V} {ports : List ι} {upstream : ι → List Msg}
  {upstreams : ι → UpstreamMsgIter} {tagged : List (ι × Msg)} {valid : V → Prop} {failing : Prop}
  {heap toReload : List ι} {i : ι} {u : UpstreamMsgIter} {msg : Msg} {it : MsgIter ι V}
  {msgs : List Msg} {is : List ι} {others : List ι} {gt : ι → ι → Bool} {rest : List Msg}
  {capacity : ℕ} {capacities : ℕ → ℕ} {new : List (ι × Msg)}

/-! ## Returned messages -/

theorem msgsFrom_append (i : ι) (tagged new : List (ι × Msg)) :
    msgsFrom i (tagged ++ new) = msgsFrom i tagged ++ msgsFrom i new := by
  simp [msgsFrom]

/-- `failing` is what an upstream failure needs. -/
structure Data (ports : List ι) (upstream : ι → List Msg) (failing : Prop)
    (upstreams : ι → UpstreamMsgIter) (tagged : List (ι × Msg)) : Prop where
  mem_ports : ∀ x ∈ tagged, x.1 ∈ ports
  split : ∀ i ∈ ports, msgsFrom i tagged ++ (upstreams i).remaining = upstream i
  inOrder : InOrder (tagged.map Prod.snd)
  upstream_inOrder : ∀ i ∈ ports, InOrder (upstreams i).remaining
  later : ∀ x ∈ tagged, ∀ ts ∈ x.2.time, ∀ i ∈ ports, ∀ msg ∈ (upstreams i).remaining,
    ∀ ts' ∈ msg.time, ts ≤ ts'
  mayFail : ∀ i ∈ ports, (upstreams i).MayFail → failing

structure Delivered (ports : List ι) (upstream : ι → List Msg) (tagged : List (ι × Msg)) : Prop where
  mem_ports : ∀ x ∈ tagged, x.1 ∈ ports
  isPrefix : ∀ i ∈ ports, msgsFrom i tagged <+: upstream i
  inOrder : InOrder (tagged.map Prod.snd)

theorem Data.delivered (h : Data ports upstream failing upstreams tagged) : Delivered ports upstream tagged :=
  ⟨h.mem_ports, fun i hi => ⟨_, h.split i hi⟩, h.inOrder⟩

theorem Data.update (h : Data ports upstream failing upstreams tagged)
    (hu : u.remaining = (upstreams i).remaining) (hfail : u.MayFail → (upstreams i).MayFail) :
    Data ports upstream failing (Function.update upstreams i u) tagged := by
  have hremaining : ∀ j, (Function.update upstreams i u j).remaining = (upstreams j).remaining := by
    intro j
    by_cases hj : j = i
    · rw [hj, Function.update_self, hu]
    · rw [Function.update_of_ne hj]
  refine ⟨h.mem_ports, fun j hj => ?_, h.inOrder, fun j hj => ?_, fun x hx ts hts j hj => ?_,
    fun j hj hj' => h.mayFail j hj ?_⟩
  · rw [hremaining]
    exact h.split j hj
  · rw [hremaining]
    exact h.upstream_inOrder j hj
  · rw [hremaining]
    exact h.later x hx ts hts j hj
  · by_cases hji : j = i
    · subst hji
      rw [Function.update_self] at hj'
      exact hfail hj'
    · rwa [Function.update_of_ne hji] at hj'

theorem inOrder_concat (h : InOrder msgs)
    (hmsg : ∀ msg' ∈ msgs, ∀ ts ∈ msg'.time, ∀ ts' ∈ msg.time, ts ≤ ts') :
    InOrder (msgs ++ [msg]) := by
  rw [InOrder, List.filterMap_append, List.pairwise_append]
  refine ⟨h, ?_, fun ts hts ts' hts' => ?_⟩
  · cases hns : msg.time <;> simp [hns]
  · obtain ⟨msg', hmsg', hns⟩ := List.mem_filterMap.mp hts
    simp only [List.mem_filterMap, List.mem_singleton, exists_eq_left] at hts'
    exact hmsg msg' hmsg' ts hns ts' hts'

theorem InOrder.le_of_mem (h : InOrder (msg :: msgs)) {ts : ℤ} (hts : msg.time = some ts) :
    ∀ msg' ∈ msgs, ∀ ts' ∈ msg'.time, ts ≤ ts' := by
  rw [InOrder, List.filterMap_cons_some hts, List.pairwise_cons] at h
  intro msg' hmsg' ts' hts'
  exact h.1 ts' (List.mem_filterMap.mpr ⟨msg', hmsg', hts'⟩)

theorem InOrder.tail (h : InOrder (msg :: msgs)) : InOrder msgs :=
  h.sublist ((List.sublist_cons_self msg msgs).filterMap _)

theorem Data.emit (h : Data ports upstream failing upstreams tagged) (hi : i ∈ ports)
    (hmsgs : (upstreams i).msgs = msg :: rest)
    (holdest : ∀ ts ∈ msg.time, ∀ j ∈ ports, ∀ msg' ∈ (upstreams j).remaining, ∀ ts' ∈ msg'.time, ts ≤ ts') :
    Data ports upstream failing (Function.update upstreams i (upstreams i).discard)
      (tagged ++ [(i, msg)]) := by
  have hremaining : (upstreams i).remaining = msg :: (upstreams i).discard.remaining := by
    simp only [UpstreamMsgIter.remaining, UpstreamMsgIter.discard, hmsgs, List.tail_cons,
      List.cons_append]
  have hsub : ∀ j, ∀ msg' ∈ (Function.update upstreams i (upstreams i).discard j).remaining,
      msg' ∈ (upstreams j).remaining := by
    intro j msg' hmem
    by_cases hj : j = i
    · subst hj
      rw [Function.update_self] at hmem
      rw [hremaining]
      exact List.mem_cons_of_mem _ hmem
    · rwa [Function.update_of_ne hj] at hmem
  have hmsg : msg ∈ (upstreams i).remaining := by
    rw [hremaining]
    exact List.mem_cons_self
  refine ⟨?_, fun j hj => ?_, ?_, fun j hj => ?_, ?_, fun j hj hj' => h.mayFail j hj ?_⟩
  · intro x hx
    rcases List.mem_append.mp hx with hx | hx
    · exact h.mem_ports x hx
    · rw [List.mem_singleton.mp hx]
      exact hi
  · rw [msgsFrom_append, List.append_assoc]
    by_cases hji : j = i
    · subst hji
      rw [Function.update_self, ← h.split j hj, hremaining]
      simp [msgsFrom]
    · rw [Function.update_of_ne hji, ← h.split j hj]
      simp [msgsFrom, Ne.symm hji]
  · rw [List.map_append]
    refine inOrder_concat h.inOrder fun msg' hmsg' ts hts ts' hts' => ?_
    obtain ⟨x, hx, rfl⟩ := List.mem_map.mp hmsg'
    exact h.later x hx ts hts i hi msg hmsg ts' hts'
  · by_cases hji : j = i
    · subst hji
      have horder := h.upstream_inOrder j hj
      rw [hremaining] at horder
      rw [Function.update_self]
      exact InOrder.tail horder
    · rw [Function.update_of_ne hji]
      exact h.upstream_inOrder j hj
  · intro x hx ts hts j hj msg' hmem ts' hts'
    rcases List.mem_append.mp hx with hx | hx
    · exact h.later x hx ts hts j hj msg' (hsub j msg' hmem) ts' hts'
    · rw [List.mem_singleton.mp hx] at hts
      exact holdest ts hts j hj msg' (hsub j msg' hmem) ts' hts'
  · rcases hj' with herror | ⟨msg', hmem, hmsg'⟩
    · refine .inl ?_
      by_cases hji : j = i
      · subst hji
        rwa [Function.update_self] at herror
      · rwa [Function.update_of_ne hji] at herror
    · exact .inr ⟨msg', hsub j msg' hmem, hmsg'⟩

/-! ## Heap -/

structure Control (ports : List ι) (upstreams : ι → UpstreamMsgIter) (heap toReload : List ι) :
    Prop where
  nodup : (heap ++ toReload).Nodup
  mem_ports : ∀ i ∈ heap ++ toReload, i ∈ ports
  ended : ∀ i ∈ ports, i ∉ heap ++ toReload → (upstreams i).remaining = []
  loaded : ∀ i ∈ heap, (upstreams i).Loaded
  isHeap : PrioHeap.IsHeap (fun i => (upstreams i).key) heap

section

variable (h : Control ports upstreams heap (i :: is))

include h

theorem Control.update_of_mem {j : ι} (hj : j ∈ heap) :
    Function.update upstreams i u j = upstreams j := by
  refine Function.update_of_ne ?_ u upstreams
  rintro rfl
  exact (List.nodup_append.mp h.nodup).2.2 j hj j List.mem_cons_self rfl

theorem Control.insert (hloaded : u.Loaded)
    (hgt : PrioHeap.Respects gt fun j => (Function.update upstreams i u j).key) :
    Control ports (Function.update upstreams i u) (PrioHeap.insert gt heap i) is := by
  have hperm : (PrioHeap.insert gt heap i ++ is).Perm (heap ++ i :: is) :=
    ((PrioHeap.insert_perm heap i).append_right is).trans List.perm_middle.symm
  refine ⟨hperm.nodup_iff.mpr h.nodup, fun j hj => h.mem_ports j (hperm.mem_iff.mp hj),
    fun j hj hnot => ?_, fun j hj => ?_, ?_⟩
  · have hnot' : j ∉ heap ++ i :: is := fun hmem => hnot (hperm.mem_iff.mpr hmem)
    have hji : j ≠ i := by
      rintro rfl
      exact hnot' (List.mem_append_right _ List.mem_cons_self)
    rw [Function.update_of_ne hji]
    exact h.ended j hj hnot'
  · rcases List.mem_cons.mp ((PrioHeap.insert_perm heap i).mem_iff.mp hj) with rfl | hj
    · rw [Function.update_self]
      exact hloaded
    · rw [h.update_of_mem hj]
      exact h.loaded j hj
  · refine PrioHeap.insert_isHeap hgt (h.isHeap.congr fun j hj => ?_) i
    rw [h.update_of_mem hj]

theorem Control.drop (hended : u.remaining = []) :
    Control ports (Function.update upstreams i u) heap is := by
  have hsub : (heap ++ is).Sublist (heap ++ i :: is) :=
    (List.Sublist.refl heap).append (List.sublist_cons_self i is)
  refine ⟨h.nodup.sublist hsub, fun j hj => h.mem_ports j (hsub.subset hj), fun j hj hnot => ?_,
    fun j hj => ?_, h.isHeap.congr fun j hj => ?_⟩
  · by_cases hji : j = i
    · rw [hji, Function.update_self, hended]
    · rw [Function.update_of_ne hji]
      refine h.ended j hj fun hmem => hnot ?_
      rcases List.mem_append.mp hmem with hmem | hmem
      · exact List.mem_append_left _ hmem
      · exact List.mem_append_right _ ((List.mem_cons.mp hmem).resolve_left hji)
  · rw [h.update_of_mem hj]
    exact h.loaded j hj
  · rw [h.update_of_mem hj]

theorem Control.keep :
    Control ports (Function.update upstreams i u) heap (i :: is) := by
  refine ⟨h.nodup, h.mem_ports, fun j hj hnot => ?_, fun j hj => ?_,
    h.isHeap.congr fun j hj => ?_⟩
  · have hji : j ≠ i := by
      rintro rfl
      exact hnot (List.mem_append_right _ List.mem_cons_self)
    rw [Function.update_of_ne hji]
    exact h.ended j hj hnot
  · rw [h.update_of_mem hj]
    exact h.loaded j hj
  · rw [h.update_of_mem hj]

end

theorem Control.replaceTop (h : Control ports upstreams (i :: others) []) (hloaded : u.Loaded)
    (hgt : PrioHeap.Respects gt fun j => (Function.update upstreams i u j).key) :
    Control ports (Function.update upstreams i u) (PrioHeap.replaceTop gt (i :: others) i) [] := by
  have hnodup := h.nodup
  rw [List.append_nil, List.nodup_cons] at hnodup
  have hne : ∀ j ∈ others, j ≠ i := by
    rintro j hj rfl
    exact hnodup.1 hj
  have hperm : (PrioHeap.replaceTop gt (i :: others) i).Perm (i :: others) :=
    PrioHeap.replaceTop_perm (List.cons_ne_nil _ _) i
  have hperm' := hperm.append_right []
  refine ⟨hperm'.nodup_iff.mpr h.nodup, fun j hj => h.mem_ports j (hperm'.mem_iff.mp hj),
    fun j hj hnot => ?_, fun j hj => ?_, ?_⟩
  · have hnot' : j ∉ i :: others ++ [] := fun hmem => hnot (hperm'.mem_iff.mpr hmem)
    have hji : j ≠ i := by
      rintro rfl
      exact hnot' List.mem_cons_self
    rw [Function.update_of_ne hji]
    exact h.ended j hj hnot'
  · by_cases hji : j = i
    · rw [hji, Function.update_self]
      exact hloaded
    · rw [Function.update_of_ne hji]
      exact h.loaded j (hperm.mem_iff.mp hj)
  · refine PrioHeap.replaceTop_isHeap hgt (h.isHeap.below_congr ?_)
      (List.cons_ne_nil _ _) i
    intro j hj
    rw [Function.update_of_ne (hne j hj)]

theorem Control.removeTop (h : Control ports upstreams (i :: others) [])
    (htoReload : toReload = [i] ∨ (toReload = [] ∧ u.remaining = []))
    (hgt : PrioHeap.Respects gt fun j => (Function.update upstreams i u j).key) :
    Control ports (Function.update upstreams i u) (PrioHeap.removeTop gt (i :: others))
      toReload := by
  have hnodup := h.nodup
  rw [List.append_nil, List.nodup_cons] at hnodup
  have hne : ∀ j ∈ others, j ≠ i := by
    rintro j hj rfl
    exact hnodup.1 hj
  have hperm : (PrioHeap.removeTop gt (i :: others)).Perm others := PrioHeap.removeTop_perm _
  have hmem : ∀ j ∈ toReload, j = i := by
    rcases htoReload with rfl | ⟨rfl, -⟩
    · exact fun j hj => List.mem_singleton.mp hj
    · exact fun j hj => absurd hj List.not_mem_nil
  refine ⟨?_, fun j hj => ?_, fun j hj hnot => ?_, fun j hj => ?_, ?_⟩
  · refine List.nodup_append.mpr ⟨hperm.nodup_iff.mpr hnodup.2, ?_, fun j hj k hk heq => ?_⟩
    · rcases htoReload with rfl | ⟨rfl, -⟩
      · simp
      · exact List.nodup_nil
    · rw [hmem k hk] at heq
      exact hne j (hperm.mem_iff.mp hj) heq
  · rcases List.mem_append.mp hj with hj | hj
    · exact h.mem_ports j (by simp [hperm.mem_iff.mp hj])
    · exact h.mem_ports j (by simp [hmem j hj])
  · by_cases hji : j = i
    · rcases htoReload with rfl | ⟨-, hended⟩
      · exact absurd (by simp [hji]) hnot
      · rw [hji, Function.update_self, hended]
    · rw [Function.update_of_ne hji]
      refine h.ended j hj fun hmem' => hnot ?_
      rw [List.append_nil] at hmem'
      exact List.mem_append_left _
        (hperm.mem_iff.mpr ((List.mem_cons.mp hmem').resolve_left hji))
  · have hj' := hperm.mem_iff.mp hj
    rw [Function.update_of_ne (hne j hj')]
    exact h.loaded j (List.mem_cons_of_mem _ hj')
  · refine PrioHeap.removeTop_isHeap hgt (h.isHeap.below_congr ?_)
    intro j hj
    rw [Function.update_of_ne (hne j hj)]

theorem Control.oldest (h : Control ports upstreams (i :: others) [])
    (hdata : Data ports upstream failing upstreams tagged)
    (hmsgs : (upstreams i).msgs = msg :: msgs) :
    ∀ ts ∈ msg.time, ∀ j ∈ ports, ∀ msg' ∈ (upstreams j).remaining, ∀ ts' ∈ msg'.time,
      ts ≤ ts' := by
  intro ts hts j hj msg' hmem ts' hts'
  obtain ⟨msg₁, rest₁, hmsgs₁, hts₁⟩ := h.loaded i List.mem_cons_self
  rw [hmsgs] at hmsgs₁
  cases hmsgs₁
  by_cases hin : j ∈ i :: others
  · -- the current message of this upstream message iterator isn't older
    obtain ⟨msg₂, rest₂, hmsgs₂, hts₂⟩ := h.loaded j hin
    have hle := h.isHeap.top_le rfl j hin
    simp only [UpstreamMsgIter.key, hts₁, hts₂] at hle
    rw [hts] at hle
    cases htime : msg₂.time with
    | none =>
      rw [htime] at hle
      exact absurd hle (WithBot.not_coe_le_bot ts)
    | some ts₂ =>
      rw [htime] at hle
      have hle : ts ≤ ts₂ := WithBot.coe_le_coe.mp hle
      have horder := hdata.upstream_inOrder j hj
      have hremaining : (upstreams j).remaining = msg₂ :: (rest₂ ++ scriptMsgs (upstreams j).script) := by
        rw [UpstreamMsgIter.remaining, hmsgs₂, List.cons_append]
      rw [hremaining] at horder hmem
      rcases List.mem_cons.mp hmem with rfl | hmem
      · rw [htime] at hts'
        cases hts'
        exact hle
      · exact hle.trans (InOrder.le_of_mem horder htime msg' hmem ts' hts')
  · rw [h.ended j hj (by simpa using hin)] at hmem
    exact absurd hmem List.not_mem_nil

/-! ## Calls -/

def totalWork (ports : List ι) (upstreams : ι → UpstreamMsgIter) : ℕ :=
  (ports.map fun i => (upstreams i).work).sum

theorem totalWork_update (hports : ports.Nodup) (hi : i ∈ ports) :
    totalWork ports (Function.update upstreams i u) + (upstreams i).work =
      totalWork ports upstreams + u.work := by
  have hperm := List.perm_cons_erase hi
  have herase : (ports.erase i).map (fun j => (Function.update upstreams i u j).work) =
      (ports.erase i).map fun j => (upstreams j).work := by
    refine List.map_congr_left fun j hj => ?_
    rw [Function.update_of_ne (hports.mem_erase_iff.mp hj).1]
  rw [totalWork, totalWork, (hperm.map _).sum_nat, (hperm.map _).sum_nat, List.map_cons,
    List.map_cons, herase, Function.update_self, List.sum_cons, List.sum_cons]
  omega

structure Inv (ports : List ι) (upstream : ι → List Msg) (valid : V → Prop) (failing : Prop)
    (it : MsgIter ι V) (tagged : List (ι × Msg)) : Prop where
  control : Control ports it.upstreams it.heap it.toReload
  data : Data ports upstream failing it.upstreams tagged
  validator : valid it.validator

/-- The validator accepts or refuses messages of the ports from valid states. -/
structure Validates (validate : V → Msg → Option V) (ports : List ι) (upstream : ι → List Msg)
    (valid : V → Prop) (failing : Prop) : Prop where
  accepts : ∀ {validator msg validator'}, valid validator → (∃ i ∈ ports, msg ∈ upstream i) →
    validate validator msg = some validator' → valid validator'
  refuses : ∀ {validator msg}, valid validator → (∃ i ∈ ports, msg ∈ upstream i) →
    validate validator msg = none → failing

structure Refilled (ports : List ι) (upstream : ι → List Msg) (valid : V → Prop) (failing : Prop)
    (it : MsgIter ι V) (tagged : List (ι × Msg)) (r : Option Exc × MsgIter ι V) : Prop where
  inv : Inv ports upstream valid failing r.2 tagged
  excToThrow : r.2.excToThrow = it.excToThrow
  work : totalWork ports r.2.upstreams ≤ totalWork ports it.upstreams
  cases : (r.1 = none ∧ r.2.toReload = []) ∨
    (r.1 = some .tryAgain ∧ totalWork ports r.2.upstreams < totalWork ports it.upstreams) ∨
    (r.1 = some .error ∧ failing)

theorem Refilled.trans {it it' : MsgIter ι V} {r : Option Exc × MsgIter ι V}
    (h : Refilled ports upstream valid failing it' tagged r) (hexc : it'.excToThrow = it.excToThrow)
    (hwork : totalWork ports it'.upstreams ≤ totalWork ports it.upstreams) :
    Refilled ports upstream valid failing it tagged r := by
  refine ⟨h.inv, h.excToThrow.trans hexc, h.work.trans hwork, ?_⟩
  rcases h.cases with h | ⟨h, hlt⟩ | h
  · exact .inl h
  · exact .inr (.inl ⟨h, Nat.lt_of_lt_of_le hlt hwork⟩)
  · exact .inr (.inr h)

theorem ensureFullHeap_refilled (hports : ports.Nodup) (is : List ι) (it : MsgIter ι V)
    (hcontrol : Control ports it.upstreams it.heap is)
    (hdata : Data ports upstream failing it.upstreams tagged) (hvalid : valid it.validator) :
    Refilled ports upstream valid failing it tagged (it.ensureFullHeap tieBreak is) := by
  induction is generalizing it with
  | nil => exact ⟨⟨hcontrol, hdata, hvalid⟩, rfl, Nat.le_refl _, .inl ⟨rfl, rfl⟩⟩
  | cons i is ih =>
    have hi : i ∈ ports := hcontrol.mem_ports i (by simp)
    obtain ⟨hremaining, hwork, hfail, hcases⟩ := (it.upstreams i).reload_reloaded
    rw [MsgIter.ensureFullHeap]
    generalize (it.upstreams i).reload = r at *
    obtain ⟨status, u⟩ := r
    simp only at hremaining hwork hfail hcases
    have hdata' : Data ports upstream failing (it.setUpstream i u).upstreams tagged :=
      hdata.update hremaining hfail
    have htotal : totalWork ports (it.setUpstream i u).upstreams + (it.upstreams i).work =
        totalWork ports it.upstreams + u.work := totalWork_update hports hi
    have hle : totalWork ports (it.setUpstream i u).upstreams ≤ totalWork ports it.upstreams := by
      omega
    rcases hcases with ⟨rfl, hloaded⟩ | ⟨rfl, hnil⟩ | ⟨rfl, hlt⟩ | ⟨rfl, hmay⟩
    · refine (ih _ ?_ ?_ ?_).trans ?_ ?_
      · exact hcontrol.insert hloaded (older_respects _)
      · exact hdata'
      · exact hvalid
      · rfl
      · exact hle
    · exact (ih _ (hcontrol.drop (hremaining.trans hnil)) hdata' hvalid).trans rfl hle
    · exact ⟨⟨hcontrol.keep, hdata', hvalid⟩, rfl, hle, .inr (.inl ⟨rfl, by simp only; omega⟩)⟩
    · exact ⟨⟨hcontrol.keep, hdata', hvalid⟩, rfl, hle, .inr (.inr ⟨rfl, hdata.mayFail i hi hmay⟩)⟩

/-- What filling an array can do; `new` is what it appends. -/
structure Filled (ports : List ι) (upstream : ι → List Msg) (valid : V → Prop) (failing : Prop)
    (capacity : ℕ) (it : MsgIter ι V) (tagged new : List (ι × Msg)) (exc : Option Exc)
    (it' : MsgIter ι V) : Prop where
  excToThrow : it'.excToThrow = it.excToThrow
  work : totalWork ports it'.upstreams + new.length ≤ totalWork ports it.upstreams
  cases : (exc = none ∧ Inv ports upstream valid failing it' (tagged ++ new) ∧
      (new = [] → capacity = 0 ∨ ∀ i ∈ ports, (it'.upstreams i).remaining = [])) ∨
    (exc = some .tryAgain ∧ Inv ports upstream valid failing it' (tagged ++ new) ∧ new ≠ []) ∨
    (exc = some .error ∧ failing ∧ Delivered ports upstream (tagged ++ new) ∧
      (new = [] → Inv ports upstream valid failing it' tagged))

theorem Filled.cons {it it' it'' : MsgIter ι V} {x : ι × Msg} {exc : Option Exc}
    (h : Filled ports upstream valid failing capacity it' (tagged ++ [x]) new exc it'')
    (hexc : it'.excToThrow = it.excToThrow)
    (hwork : totalWork ports it'.upstreams < totalWork ports it.upstreams) :
    Filled ports upstream valid failing (capacity + 1) it tagged (x :: new) exc it'' := by
  have happend : tagged ++ x :: new = tagged ++ [x] ++ new := by simp
  refine ⟨h.excToThrow.trans hexc, ?_, ?_⟩
  · have := h.work
    rw [List.length_cons]
    omega
  · rw [happend]
    rcases h.cases with ⟨h, hinv, -⟩ | ⟨h, hinv, -⟩ | ⟨h, hfailing, hdelivered, -⟩
    · exact .inl ⟨h, hinv, fun hnil => (by cases hnil)⟩
    · exact .inr (.inl ⟨h, hinv, List.cons_ne_nil _ _⟩)
    · exact .inr (.inr ⟨h, hfailing, hdelivered, fun hnil => (by cases hnil)⟩)

theorem Inv.emit (h : Inv ports upstream valid failing it tagged) (hports : ports.Nodup)
    (hcontrol : Control ports it.upstreams (i :: others) [])
    (hmsgs : (it.upstreams i).msgs = msg :: rest) :
    Data ports upstream failing (it.setUpstream i (it.upstreams i).discard.reload.2).upstreams
      (tagged ++ [(i, msg)]) ∧
    totalWork ports (it.setUpstream i (it.upstreams i).discard.reload.2).upstreams <
      totalWork ports it.upstreams ∧
    (((it.upstreams i).discard.reload.1 = .ok .more ∧ (it.upstreams i).discard.reload.2.Loaded) ∨
      ((it.upstreams i).discard.reload.1 = .ok .noMore ∧
        (it.upstreams i).discard.reload.2.remaining = []) ∨
      (it.upstreams i).discard.reload.1 = .error .tryAgain ∨
      ((it.upstreams i).discard.reload.1 = .error .error ∧ failing)) := by
  have hi : i ∈ ports := hcontrol.mem_ports i (by simp)
  have hemit := h.data.emit hi hmsgs (hcontrol.oldest h.data hmsgs)
  obtain ⟨hremaining, hwork, hfail, hcases⟩ := (it.upstreams i).discard.reload_reloaded
  generalize (it.upstreams i).discard.reload = r at *
  obtain ⟨status, u⟩ := r
  simp only at hremaining hwork hfail hcases
  refine ⟨?_, ?_, ?_⟩
  · have h := hemit.update (i := i) (u := u) (by rwa [Function.update_self])
      (by rwa [Function.update_self])
    rwa [Function.update_idem] at h
  · have htotal : totalWork ports (it.setUpstream i u).upstreams + (it.upstreams i).work =
        totalWork ports it.upstreams + u.work := totalWork_update hports hi
    have hdiscard : (it.upstreams i).discard.work + 1 = (it.upstreams i).work := by
      simp only [UpstreamMsgIter.work, UpstreamMsgIter.discard, hmsgs, List.tail_cons,
        List.length_cons]
      omega
    simp only
    omega
  · rcases hcases with h | ⟨h, hnil⟩ | ⟨h, -⟩ | ⟨h, hmay⟩
    · exact .inl h
    · exact .inr (.inl ⟨h, hremaining.trans hnil⟩)
    · exact .inr (.inr (.inl h))
    · refine .inr (.inr (.inr ⟨h, hemit.mayFail i hi ?_⟩))
      rwa [Function.update_self]

theorem fill_filled (tieBreak : Msg → Msg → Bool) (hports : ports.Nodup)
    (hvalidate : Validates validate ports upstream valid failing) (capacity : ℕ) :
    ∀ (msgs : List Msg) (it : MsgIter ι V) (tagged : List (ι × Msg)),
      Inv ports upstream valid failing it tagged → it.toReload = [] →
      ∃ new, (it.fill tieBreak validate capacity msgs).2.1 = msgs ++ new.map Prod.snd ∧
        Filled ports upstream valid failing capacity it tagged new
          (it.fill tieBreak validate capacity msgs).1
          (it.fill tieBreak validate capacity msgs).2.2 := by
  induction capacity with
  | zero =>
    intro msgs it tagged hinv htoReload
    refine ⟨[], by simp [MsgIter.fill], rfl, Nat.le_refl _, .inl ⟨rfl, ?_, fun _ => .inl rfl⟩⟩
    rwa [List.append_nil]
  | succ capacity ih =>
    intro msgs it tagged hinv htoReload
    have hcontrol := hinv.control
    rw [htoReload] at hcontrol
    rw [MsgIter.fill]
    cases hheap : it.heap with
    | nil =>
      refine ⟨[], by simp, rfl, Nat.le_refl _, .inl ⟨rfl, ?_, fun _ => .inr fun i hi => ?_⟩⟩
      · rwa [List.append_nil]
      · exact hcontrol.ended i hi (by simp [hheap])
    | cons oldest others =>
      rw [hheap] at hcontrol
      have holdest : oldest ∈ ports := hcontrol.mem_ports oldest (by simp)
      obtain ⟨msg, rest, hmsgs, -⟩ := hcontrol.loaded oldest List.mem_cons_self
      have hmsg : ∃ i ∈ ports, msg ∈ upstream i := by
        refine ⟨oldest, holdest, ?_⟩
        rw [← hinv.data.split oldest holdest]
        simp [UpstreamMsgIter.remaining, hmsgs]
      simp only [hmsgs]
      cases hvalid : validateMsgClkCls validate it.validator msg with
      | none =>
        have hfailing : failing := by
          cases msg <;> first | exact hvalidate.refuses hinv.validator hmsg hvalid | cases hvalid
        refine ⟨[], by simp, rfl, Nat.le_refl _, .inr (.inr ⟨rfl, hfailing, ?_, fun _ => hinv⟩)⟩
        rw [List.append_nil]
        exact hinv.data.delivered
      | some validator =>
        have hvalid' : valid validator := by
          cases msg <;> first
            | exact hvalidate.accepts hinv.validator hmsg hvalid
            | exact Option.some.inj hvalid ▸ hinv.validator
        obtain ⟨hdata, hlt, hcases⟩ := hinv.emit hports hcontrol hmsgs
        simp only
        generalize (it.upstreams oldest).discard.reload = r at *
        obtain ⟨status, u⟩ := r
        obtain ⟨upstreams, heap, toReload, validator₀, excToThrow⟩ := it
        simp only at hheap htoReload hdata hlt hcases hcontrol
        subst hheap htoReload
        -- the loop goes on
        have hrec : ∀ {heap : List ι} {r : Option Exc × List Msg × MsgIter ι V},
            r = MsgIter.fill tieBreak validate capacity (msgs ++ [msg])
              ⟨Function.update upstreams oldest u, heap, [], validator, excToThrow⟩ →
            Control ports (Function.update upstreams oldest u) heap [] →
            ∃ new, r.2.1 = msgs ++ new.map Prod.snd ∧
              Filled ports upstream valid failing (capacity + 1)
              ⟨upstreams, oldest :: others, [], validator₀, excToThrow⟩ tagged new r.1 r.2.2 := by
          rintro heap _ rfl hcontrol'
          obtain ⟨new, hnew, hfilled⟩ := ih (msgs ++ [msg])
            ⟨Function.update upstreams oldest u, heap, [], validator, excToThrow⟩ _
            ⟨hcontrol', hdata, hvalid'⟩ rfl
          exact ⟨(oldest, msg) :: new, by simpa using hnew, hfilled.cons rfl hlt⟩
        rcases hcases with ⟨rfl, hloaded⟩ | ⟨rfl, hnil⟩ | rfl | ⟨rfl, hfailing⟩
        · exact hrec rfl (hcontrol.replaceTop hloaded (older_respects _))
        · exact hrec rfl (hcontrol.removeTop (.inr ⟨rfl, hnil⟩) (older_respects _))
        · refine ⟨[(oldest, msg)], rfl, rfl, hlt, .inr (.inl ⟨rfl, ?_, List.cons_ne_nil _ _⟩)⟩
          exact ⟨hcontrol.removeTop (.inl rfl) (older_respects _), hdata, hvalid'⟩
        · exact ⟨[(oldest, msg)], rfl, rfl, hlt,
            .inr (.inr ⟨rfl, hfailing, hdata.delivered, fun hnil => (by cases hnil)⟩)⟩

def Reached (ports : List ι) (upstream : ι → List Msg) (valid : V → Prop) (failing : Prop)
    (it : MsgIter ι V) (tagged : List (ι × Msg)) : Prop :=
  (it.excToThrow = true ∧ failing ∧ Delivered ports upstream tagged) ∨
    (it.excToThrow = false ∧ Inv ports upstream valid failing it tagged)

theorem Reached.delivered (h : Reached ports upstream valid failing it tagged) :
    Delivered ports upstream tagged := by
  rcases h with ⟨-, -, h⟩ | ⟨-, h⟩
  · exact h
  · exact h.data.delivered

/-- What a call can do; `new` is what it returns. -/
structure Called (ports : List ι) (upstream : ι → List Msg) (valid : V → Prop) (failing : Prop)
    (it : MsgIter ι V) (tagged new : List (ι × Msg)) (r : Except Exc (List Msg) × MsgIter ι V) :
    Prop where
  returned : returned r.1 = new.map Prod.snd
  reached : Reached ports upstream valid failing r.2 (tagged ++ new)
  cases : (r.1 = .ok [] ∧ ∀ i ∈ ports, msgsFrom i tagged = upstream i) ∨
    (r.1 = .error .error ∧ failing) ∨
    (r.1 ≠ .ok [] ∧ (∀ exc, r.1 = .error exc → exc = .tryAgain) ∧
      totalWork ports r.2.upstreams < totalWork ports it.upstreams)

theorem Called.of_ne_nil {it it' : MsgIter ι V} (hne : new ≠ [])
    (hreached : Reached ports upstream valid failing it' (tagged ++ new))
    (hwork : totalWork ports it'.upstreams + new.length ≤ totalWork ports it.upstreams) :
    Called ports upstream valid failing it tagged new (.ok (new.map Prod.snd), it') := by
  refine ⟨rfl, hreached, .inr (.inr ⟨?_, fun _ h => (by cases h), ?_⟩)⟩
  · intro h
    exact hne (List.map_eq_nil_iff.mp (Except.ok.inj h))
  · have := List.length_pos_iff.mpr hne
    simp only
    omega

theorem next_called (tieBreak : Msg → Msg → Bool) (hports : ports.Nodup)
    (hvalidate : Validates validate ports upstream valid failing) (hcapacity : 0 < capacity)
    (h : Reached ports upstream valid failing it tagged) :
    ∃ new, Called ports upstream valid failing it tagged new (it.next tieBreak validate capacity) := by
  rcases h with ⟨hexc, hfailing, hdelivered⟩ | ⟨hexc, hinv⟩
  · rw [MsgIter.next, if_pos hexc]
    refine ⟨[], rfl, .inl ⟨hexc, hfailing, ?_⟩, .inr (.inl ⟨rfl, hfailing⟩)⟩
    rwa [List.append_nil]
  · have hrefilled : Refilled ports upstream valid failing it tagged
        (it.ensureFullHeap tieBreak it.toReload) :=
      ensureFullHeap_refilled hports it.toReload it hinv.control hinv.data hinv.validator
    rw [MsgIter.next, if_neg (by simp [hexc]), MsgIter.fillArray]
    generalize it.ensureFullHeap tieBreak it.toReload = r at *
    obtain ⟨exc, it'⟩ := r
    obtain ⟨hinv', hexc', hwork', hcases⟩ := hrefilled
    simp only at hinv' hexc' hwork' hcases
    rw [hexc] at hexc'
    have hreached : Reached ports upstream valid failing it' (tagged ++ []) := by
      rw [List.append_nil]
      exact .inr ⟨hexc', hinv'⟩
    rcases hcases with ⟨rfl, htoReload⟩ | ⟨rfl, hlt⟩ | ⟨rfl, hfailing⟩
    · obtain ⟨new, hmsgs, hexc'', hwork'', hfilled⟩ :=
        fill_filled tieBreak hports hvalidate capacity [] it' tagged hinv' htoReload
      simp only
      generalize it'.fill tieBreak validate capacity [] = f at *
      obtain ⟨exc, msgs, it''⟩ := f
      simp only [List.nil_append] at hmsgs hexc'' hwork'' hfilled
      subst hmsgs
      rw [hexc'] at hexc''
      have hwork := hwork''.trans hwork'
      refine ⟨new, ?_⟩
      by_cases hnew : new = []
      · subst hnew
        rcases hfilled with ⟨rfl, hinv'', hend⟩ | ⟨-, -, hne⟩ | ⟨rfl, hfailing, -, hinv''⟩
        · refine ⟨rfl, .inr ⟨hexc'', hinv''⟩, .inl ⟨rfl, fun i hi => ?_⟩⟩
          have hsplit := hinv''.data.split i hi
          rwa [(hend rfl).resolve_left (by omega) i hi, List.append_nil, List.append_nil] at hsplit
        · exact absurd rfl hne
        · refine ⟨rfl, .inr ⟨hexc'', ?_⟩, .inr (.inl ⟨rfl, hfailing⟩)⟩
          rw [List.append_nil]
          exact hinv'' rfl
      · have hmsgs : new.map Prod.snd ≠ [] := by simpa using hnew
        rcases hfilled with ⟨rfl, hinv'', -⟩ | ⟨rfl, hinv'', -⟩ | ⟨rfl, hfailing, hdelivered, -⟩
        · exact .of_ne_nil hnew (.inr ⟨hexc'', hinv''⟩) hwork
        · simp only [hmsgs, if_false, if_true]
          exact .of_ne_nil hnew (.inr ⟨hexc'', hinv''⟩) hwork
        · simp only [hmsgs, if_false, reduceCtorEq]
          exact .of_ne_nil hnew (.inl ⟨rfl, hfailing, hdelivered⟩) hwork
    · refine ⟨[], rfl, hreached, .inr (.inr ⟨fun h => (by cases h), fun exc h => ?_, hlt⟩)⟩
      exact (Except.error.inj h).symm
    · exact ⟨[], rfl, hreached, .inr (.inl ⟨rfl, hfailing⟩)⟩

theorem new_reached {scripts : ι → List Reply} (hports : ports.Nodup)
    (horder : ∀ i ∈ ports, InOrder (scriptMsgs (scripts i)))
    (hfail : ∀ i ∈ ports, (UpstreamMsgIter.new (scripts i)).MayFail → failing) {validator : V}
    (hvalid : valid validator) : Reached ports (fun i => scriptMsgs (scripts i)) valid failing
      (.new ports scripts validator) [] := by
  refine .inr ⟨rfl, ⟨hports, fun i hi => hi, fun i hi hnot => absurd hi hnot, ?_, ?_⟩,
    ⟨?_, ?_, ?_, horder, ?_, hfail⟩, hvalid⟩
  · intro i hi
    cases hi
  · intro pos parent child _ _ hparent
    cases hparent
  · intro x hx
    cases hx
  · intro i _
    rfl
  · exact List.Pairwise.nil
  · intro x hx
    cases hx

theorem afterCalls_reached (tieBreak : Msg → Msg → Bool) (hports : ports.Nodup)
    (hvalidate : Validates validate ports upstream valid failing)
    (hcapacities : ∀ k, 0 < capacities k) (h : Reached ports upstream valid failing it []) (k : ℕ) :
    ∃ tagged, tagged.map Prod.snd = (afterCalls tieBreak validate it capacities k).2 ∧
      Reached ports upstream valid failing (afterCalls tieBreak validate it capacities k).1 tagged := by
  induction k with
  | zero => exact ⟨[], rfl, h⟩
  | succ k ih =>
    obtain ⟨tagged, htagged, hreached⟩ := ih
    obtain ⟨new, hcalled⟩ := next_called tieBreak hports hvalidate (hcapacities k) hreached
    refine ⟨tagged ++ new, ?_, hcalled.reached⟩
    rw [List.map_append, htagged, ← hcalled.returned]
    rfl

/-- A state of the validator once it has accepted some of the messages -/
def Accepts (validate : V → Msg → Option V) (validator : V) (ports : List ι)
    (scripts : ι → List Reply) (validator' : V) : Prop :=
  ∃ msgs : List Msg, (∀ msg ∈ msgs, ∃ i ∈ ports, msg ∈ scriptMsgs (scripts i)) ∧
    msgs.foldlM validate validator = some validator'

def Failing (validate : V → Msg → Option V) (validator : V) (ports : List ι)
    (scripts : ι → List Reply) : Prop :=
  (∃ i ∈ ports, (UpstreamMsgIter.new (scripts i)).MayFail) ∨
    ∃ validator', Accepts validate validator ports scripts validator' ∧
      ∃ i ∈ ports, ∃ msg ∈ scriptMsgs (scripts i), validate validator' msg = none

theorem totalWork_afterCalls (hports : ports.Nodup)
    (hvalidate : Validates validate ports upstream valid failing)
    (hcapacities : ∀ k, 0 < capacities k) (h : Reached ports upstream valid failing it [])
    (hgoing : ∀ k, call tieBreak validate it capacities k ≠ .ok [] ∧
      call tieBreak validate it capacities k ≠ .error .error)
    (k : ℕ) :
    totalWork ports (afterCalls tieBreak validate it capacities k).1.upstreams + k ≤
      totalWork ports it.upstreams := by
  induction k with
  | zero => exact Nat.le_refl _
  | succ k ih =>
    obtain ⟨tagged, -, hreached⟩ := afterCalls_reached tieBreak hports hvalidate hcapacities h k
    obtain ⟨new, hcalled⟩ := next_called tieBreak hports hvalidate (hcapacities k) hreached
    rcases hcalled.cases with ⟨hend, -⟩ | ⟨herror, -⟩ | ⟨-, -, hlt⟩
    · exact absurd hend (hgoing k).1
    · exact absurd herror (hgoing k).2
    · have hsucc : (afterCalls tieBreak validate it capacities (k + 1)).1 =
          ((afterCalls tieBreak validate it capacities k).1.next tieBreak validate
            (capacities k)).2 := rfl
      rw [hsucc]
      omega

/-- Whatever the batches, the retries and the capacities: what the calls returned so far is an
interleaving of initial parts of the upstream sequences, in order; it's an interleaving of the whole
ones when a call reports the end; and the end comes, unless there's a failure. -/
theorem next_merges (tieBreak : Msg → Msg → Bool) (validate : V → Msg → Option V) (validator : V)
    (hports : ports.Nodup) (scripts : ι → List Reply)
    (horder : ∀ i ∈ ports, InOrder (scriptMsgs (scripts i))) (capacities : ℕ → ℕ)
    (hcapacities : ∀ k, 0 < capacities k) :
    (∀ k, InOrder (afterCalls tieBreak validate (.new ports scripts validator) capacities k).2 ∧
      ∃ parts : ι → List Msg, (∀ i ∈ ports, parts i <+: scriptMsgs (scripts i)) ∧
        IsInterleaving ports parts
          (afterCalls tieBreak validate (.new ports scripts validator) capacities k).2) ∧
    (∀ k, call tieBreak validate (.new ports scripts validator) capacities k = .ok [] →
      IsInterleaving ports (fun i => scriptMsgs (scripts i))
        (afterCalls tieBreak validate (.new ports scripts validator) capacities k).2) ∧
    (∀ k, call tieBreak validate (.new ports scripts validator) capacities k ≠ .error .fault) ∧
    (∀ k, call tieBreak validate (.new ports scripts validator) capacities k = .error .error →
      Failing validate validator ports scripts) ∧
    ∃ k, call tieBreak validate (.new ports scripts validator) capacities k = .ok [] ∨
      call tieBreak validate (.new ports scripts validator) capacities k = .error .error := by
  have hvalidate : Validates validate ports (fun i => scriptMsgs (scripts i))
      (Accepts validate validator ports scripts) (Failing validate validator ports scripts) := by
    constructor
    · rintro validator₁ msg validator₂ ⟨msgs, hmsgs, hfold⟩ hmsg hnext
      refine ⟨msgs ++ [msg], ?_, ?_⟩
      · simpa [or_imp, forall_and] using ⟨hmsgs, hmsg⟩
      · simp [List.foldlM_append, hfold, hnext]
    · rintro validator₁ msg hvalid ⟨i, hi, hmsg⟩ hnone
      exact .inr ⟨validator₁, hvalid, i, hi, msg, hmsg, hnone⟩
  have haccepts : Accepts validate validator ports scripts validator := ⟨[], by simp, by simp⟩
  have hnew : Reached ports (fun i => scriptMsgs (scripts i))
      (Accepts validate validator ports scripts) (Failing validate validator ports scripts)
      (.new ports scripts validator) [] :=
    new_reached hports horder (fun i hi h => .inl ⟨i, hi, h⟩) haccepts
  have hafter := afterCalls_reached tieBreak hports hvalidate hcapacities hnew
  have hcall : ∀ k, ∃ tagged new,
      tagged.map Prod.snd =
        (afterCalls tieBreak validate (.new ports scripts validator) capacities k).2 ∧
      Delivered ports (fun i => scriptMsgs (scripts i)) tagged ∧
      Called ports (fun i => scriptMsgs (scripts i))
        (Accepts validate validator ports scripts) (Failing validate validator ports scripts)
        (afterCalls tieBreak validate (.new ports scripts validator) capacities k).1 tagged new
        ((afterCalls tieBreak validate (.new ports scripts validator) capacities k).1.next tieBreak
          validate (capacities k)) := by
    intro k
    obtain ⟨tagged, htagged, hreached⟩ := hafter k
    obtain ⟨new, hcalled⟩ := next_called tieBreak hports hvalidate (hcapacities k) hreached
    exact ⟨tagged, new, htagged, hreached.delivered, hcalled⟩
  refine ⟨fun k => ?_, fun k hend => ?_, fun k hfault => ?_, fun k herror => ?_, ?_⟩
  · obtain ⟨tagged, -, htagged, hdelivered, -⟩ := hcall k
    refine ⟨htagged ▸ hdelivered.inOrder, fun i => msgsFrom i tagged, hdelivered.isPrefix, tagged,
      htagged, hdelivered.mem_ports, fun _ _ => rfl⟩
  · obtain ⟨tagged, new, htagged, hdelivered, hcalled⟩ := hcall k
    refine ⟨tagged, htagged, hdelivered.mem_ports, ?_⟩
    rcases hcalled.cases with ⟨-, h⟩ | ⟨h, -⟩ | ⟨h, -, -⟩
    · exact h
    · cases hend.symm.trans h
    · exact absurd hend h
  · obtain ⟨tagged, new, -, -, hcalled⟩ := hcall k
    rcases hcalled.cases with ⟨h, -⟩ | ⟨h, -⟩ | ⟨-, h, -⟩
    · cases hfault.symm.trans h
    · cases hfault.symm.trans h
    · cases h _ hfault
  · obtain ⟨tagged, new, -, -, hcalled⟩ := hcall k
    rcases hcalled.cases with ⟨h, -⟩ | ⟨-, h⟩ | ⟨-, h, -⟩
    · cases herror.symm.trans h
    · exact h
    · cases h _ herror
  · by_contra hnever
    simp only [not_exists, not_or] at hnever
    have := totalWork_afterCalls hports hvalidate hcapacities hnew hnever
      (totalWork ports (MsgIter.new ports scripts validator).upstreams + 1)
    omega

def twoScripts : Bool → List Reply
  | false => [.msgs (.inactivity nsClockClass 1) [], .again, .msgs (.inactivity nsClockClass 5) []]
  | true => [.msgs (.inactivity nsClockClass 3) [.inactivity nsClockClass 7]]

theorem twoScripts_next_merges :
    (afterCalls (fun _ _ => false) (fun _ _ => some ()) (.new [false, true] twoScripts ())
        (fun _ => 2) 3).2 =
      [.inactivity nsClockClass 1, .inactivity nsClockClass 3, .inactivity nsClockClass 5,
        .inactivity nsClockClass 7] ∧
    IsInterleaving [false, true] (fun i => scriptMsgs (twoScripts i))
      (afterCalls (fun _ _ => false) (fun _ _ => some ()) (.new [false, true] twoScripts ())
        (fun _ => 2) 3).2 := by
  have horder : ∀ i ∈ [false, true], InOrder (scriptMsgs (twoScripts i)) := by
    intro i _
    cases i with
    | false => exact (by decide +kernel : ([1, 5] : List ℤ).Pairwise (· ≤ ·))
    | true => exact (by decide +kernel : ([3, 7] : List ℤ).Pairwise (· ≤ ·))
  refine ⟨by decide +kernel, ?_⟩
  exact (next_merges (fun _ _ => false) (fun _ _ => some ()) () (by decide) twoScripts horder
    (fun _ => 2) (fun _ => by decide)).2.1 3 (by decide +kernel)

end Babeltrace.Muxer
