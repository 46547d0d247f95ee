import Babeltrace.CtfMsgIter
import Babeltrace.MuxerMerge

/-!
# Muxed messages

The messages of different streams may be interleaved in any way: what a muxer returns follows the
protocol when the messages of its upstream message iterators do and no stream has messages from two of
them.
-/
namespace Babeltrace.Muxer
open Babeltrace.Graph KeyedFold Machine CtfSrc

variable {ι V : Type} {ports : List ι} {upstream : ι → List Msg}
  {tagged : List (ι × Msg)}

/-- No stream has messages from two upstream message iterators. -/
def DisjointStreams (ports : List ι) (upstream : ι → List Msg) : Prop :=
  ∀ i ∈ ports, ∀ j ∈ ports, ∀ a ∈ upstream i, ∀ b ∈ upstream j, ∀ stream, a.stream = some stream →
    b.stream = some stream → i = j

theorem DisjointStreams.of_sent {streams : ι → Stream}
    (hstreams : ∀ i ∈ ports, ∀ j ∈ ports, streams i = streams j → i = j)
    (hsent : ∀ i ∈ ports, Sent (streams i) (upstream i) .ended) : DisjointStreams ports upstream := by
  intro i hi j hj a ha b hb stream hstream hstream'
  rw [(hsent i hi).stream_eq a ha] at hstream
  rw [(hsent j hj).stream_eq b hb] at hstream'
  exact hstreams i hi j hj (Option.some.inj (hstream.trans hstream'.symm))

variable [DecidableEq ι]

section

variable (h : Delivered ports upstream tagged)

include h

theorem Delivered.mem_upstream {x : ι × Msg} (hx : x ∈ tagged) :
    x.2 ∈ upstream x.1 := by
  refine (h.isPrefix x.1 (h.mem_ports x hx)).subset (List.mem_map_of_mem ?_)
  exact List.mem_filter.mpr ⟨hx, by simp⟩

variable (hdisjoint : DisjointStreams ports upstream)

include hdisjoint

/-- The messages of a stream all come from one upstream message iterator. -/
theorem Delivered.ofKey_cases (stream : Stream) :
    ofKey Msg.stream stream (tagged.map Prod.snd) = [] ∨ ∃ i ∈ ports,
      ofKey Msg.stream stream (tagged.map Prod.snd) =
        ofKey Msg.stream stream (msgsFrom i tagged) := by
  by_cases hmem : ∃ x ∈ tagged, x.2.stream = some stream
  · obtain ⟨x, hx, hstream⟩ := hmem
    refine .inr ⟨x.1, h.mem_ports x hx, ?_⟩
    simp only [ofKey, msgsFrom, List.filter_map, List.filter_filter]
    refine congrArg _ (List.filter_congr fun y hy => ?_)
    have hsame (hy' : y.2.stream = some stream) : y.1 = x.1 :=
      hdisjoint _ (h.mem_ports y hy) _ (h.mem_ports x hx) _ (h.mem_upstream hy) _
        (h.mem_upstream hx) stream hy' hstream
    simpa using hsame
  · refine .inl (List.filter_eq_nil_iff.mpr fun msg hmsg => ?_)
    obtain ⟨x, hx, rfl⟩ := List.mem_map.mp hmsg
    simpa using fun hstream => hmem ⟨x, hx, hstream⟩

theorem Delivered.extendable (hupstream : ∀ i ∈ ports, Extendable (upstream i)) :
    Extendable (tagged.map Prod.snd) := by
  refine (extendable_iff _).mpr fun stream => ?_
  obtain hnil | ⟨i, hi, heq⟩ := h.ofKey_cases hdisjoint stream
  · exact ⟨.notBegun, by rw [hnil]; rfl⟩
  · obtain ⟨more, hmore⟩ := h.isPrefix i hi
    rw [heq]
    exact (extendable_iff _).mp (.of_append (hmore ▸ hupstream i hi)) stream

theorem Delivered.validSequence (hupstream : ∀ i ∈ ports, ValidSequence (upstream i))
    (hall : ∀ i ∈ ports, msgsFrom i tagged = upstream i) : ValidSequence (tagged.map Prod.snd) := by
  intro stream
  obtain hnil | ⟨i, hi, heq⟩ := h.ofKey_cases hdisjoint stream
  · exact .inl hnil
  · rw [heq, hall i hi]
    exact hupstream i hi stream

end

section
variable (tieBreak : Msg → Msg → Bool) (validate : V → Msg → Option V) (validator : V)
  (hports : ports.Nodup) (scripts : ι → List Reply)
  (horder : ∀ i ∈ ports, InOrder (scriptMsgs (scripts i))) (capacities : ℕ → ℕ)
  (hcapacities : ∀ k, 0 < capacities k)
include hports horder hcapacities

theorem afterCalls_delivered (k : ℕ) : ∃ tagged,
    tagged.map Prod.snd =
      (afterCalls tieBreak validate (.new ports scripts validator) capacities k).2 ∧
    Delivered ports (fun i => scriptMsgs (scripts i)) tagged ∧
    (call tieBreak validate (.new ports scripts validator) capacities k = .ok [] →
      ∀ i ∈ ports, msgsFrom i tagged = scriptMsgs (scripts i)) := by
  have hnew : Reached ports (fun i => scriptMsgs (scripts i)) (fun _ => True) True
      (.new ports scripts validator) [] := new_reached hports horder (fun _ _ _ => trivial) trivial
  have hvalidate : Validates validate ports (fun i => scriptMsgs (scripts i)) (fun _ => True) True :=
    ⟨fun _ _ _ => trivial, fun _ _ _ => trivial⟩
  obtain ⟨tagged, htagged, hreached⟩ :=
    afterCalls_reached tieBreak hports hvalidate hcapacities hnew k
  obtain ⟨new, hcalled⟩ := next_called tieBreak hports hvalidate (hcapacities k) hreached
  refine ⟨tagged, htagged, hreached.delivered, fun hend => ?_⟩
  rcases hcalled.cases with ⟨-, h⟩ | ⟨h, -⟩ | ⟨h, -⟩
  · exact h
  · cases hend.symm.trans h
  · exact absurd hend h

/-- What a muxer returned follows the protocol at any time, and it's a whole sequence when the muxer
ends. -/
theorem muxed_follow_protocol
    (hdisjoint : DisjointStreams ports fun i => scriptMsgs (scripts i))
    (hupstream : ∀ i ∈ ports, ValidSequence (scriptMsgs (scripts i))) (k : ℕ) :
    Extendable (afterCalls tieBreak validate (.new ports scripts validator) capacities k).2 ∧
    (call tieBreak validate (.new ports scripts validator) capacities k = .ok [] →
      ValidSequence (afterCalls tieBreak validate (.new ports scripts validator) capacities k).2) := by
  obtain ⟨tagged, htagged, hdelivered, hall⟩ := afterCalls_delivered tieBreak validate validator hports
    scripts horder capacities hcapacities k
  rw [← htagged]
  exact ⟨hdelivered.extendable hdisjoint fun i hi => (hupstream i hi).extendable,
    fun hend => hdelivered.validSequence hdisjoint hupstream (hall hend)⟩

/-- So do muxed data streams, whatever their trace classes, their media, and how the messages of each
one are grouped. -/
theorem muxed_data_streams_follow_protocol (cfgs : ι → Config) (tcs : ι → ItemSeq.TraceCls)
    (media : ι → ItemSeq.Medium → Prop)
    (hstreams : ∀ i ∈ ports, ∀ j ∈ ports, (cfgs i).stream = (cfgs j).stream → i = j)
    (hmade : ∀ i ∈ ports, Made (cfgs i) (tcs i) (media i) (scriptMsgs (scripts i))) (k : ℕ) :
    Extendable (afterCalls tieBreak validate (.new ports scripts validator) capacities k).2 ∧
    (call tieBreak validate (.new ports scripts validator) capacities k = .ok [] →
      ValidSequence (afterCalls tieBreak validate (.new ports scripts validator) capacities k).2) := by
  have hdisjoint := DisjointStreams.of_sent hstreams fun i hi => (hmade i hi).sent
  obtain ⟨tagged, htagged, hdelivered, hall⟩ := afterCalls_delivered tieBreak validate validator hports
    scripts horder capacities hcapacities k
  rw [← htagged]
  exact ⟨hdelivered.extendable hdisjoint fun i hi => (hmade i hi).sent.extendable, fun hend =>
    hdelivered.validSequence hdisjoint (fun i hi => (hmade i hi).sent.validSequence) (hall hend)⟩

end

/-- Each data stream gives two messages at a time. -/
def paddedScripts (id : Bool) : List Reply :=
  match paddedMsgs id.toNat with
  | [a, b, c, d, e] => [.msgs a [b], .again, .msgs c [d], .msgs e []]
  | _ => []

theorem paddedScripts_made (id : Bool) : Made (paddedConfig id.toNat) ItemSeq.paddedTraceCls
    (· = ItemSeq.paddedMedium) (scriptMsgs (paddedScripts id)) := by
  cases id <;> exact paddedMsgs_made _

theorem paddedScripts_inOrder (id : Bool) : InOrder (scriptMsgs (paddedScripts id)) := by
  cases id <;> exact List.Pairwise.nil

theorem muxed_follow_protocol_padded :
    let delivered := (afterCalls (fun _ _ => false) (fun _ _ => some ())
      (.new [false, true] paddedScripts ()) (fun _ => 3) 2).2
    delivered.length = 4 ∧ Extendable delivered := by
  have hsent (id : Bool) := (paddedScripts_made id).sent
  exact ⟨by decide +kernel, (muxed_follow_protocol (fun _ _ => false) (fun _ _ => some ()) ()
    (by decide) paddedScripts (fun id _ => paddedScripts_inOrder id) (fun _ => 3)
    (fun _ => by decide) (.of_sent (by decide) fun id _ => hsent id)
    (fun id _ => (hsent id).validSequence) 2).1⟩

theorem muxed_data_streams_follow_protocol_padded :
    ValidSequence (afterCalls (fun _ _ => false) (fun _ _ => some ())
      (.new [false, true] paddedScripts ()) (fun _ => 3) 6).2 :=
  (muxed_data_streams_follow_protocol (fun _ _ => false) (fun _ _ => some ()) () (by decide)
    paddedScripts (fun id _ => paddedScripts_inOrder id) (fun _ => 3) (fun _ => by decide)
    (fun id => paddedConfig id.toNat) (fun _ => ItemSeq.paddedTraceCls)
    (fun _ => (· = ItemSeq.paddedMedium)) (by decide) (fun id _ => paddedScripts_made id) 6).2
    (by decide +kernel)

end Babeltrace.Muxer
