import Babeltrace.ItemSeqGrammar

/-!
# Classes of event records

The current class ID is reset with a packet and with its data stream information only: an event
record of which the header has no class ID field gets the class of a previous one.
-/
namespace Babeltrace.ItemSeq
open Machine Program

def UIntFieldRole.isClsId : UIntFieldRole → Bool
  | .dataStreamClsId | .eventRecordClsId => true
  | _ => false

def Item.clsId : Item → Option ℕ
  | .fixedLenField .uInt fc val | .varLenIntField false fc val _ =>
    if fc.roles.any UIntFieldRole.isClsId then some val.toNat else none
  | _ => none

def ownClsIdAfter (id : Option ℕ) : Item → Option ℕ
  | .eventRecordBegin | .pktBegin | .dataStreamInfo _ => none
  | i => i.clsId.or id

def ownClsId (items : List Item) : Option ℕ := items.foldl ownClsIdAfter none

structure KeptCls where
  clsId : Option ℕ := none
  cls : Option EventRecordCls := none

def Dec.keptCls (d : Dec) : KeptCls := ⟨d.curClsId, d.eventRecordInfo.cls⟩

def KeptCls.after (k : KeptCls) : Item → KeptCls
  | .pktBegin => {}
  | .dataStreamInfo _ => { k with clsId := none }
  | .eventRecordInfo info => { k with cls := info.cls }
  | i => { k with clsId := i.clsId.or k.clsId }

def keptCls (items : List Item) : KeptCls := items.foldl KeptCls.after {}

variable {i : Item} {d d' : Dec} {c : Bool} {n r r' : ℕ} {sfc : ScalarFc} {val : ℤ}

theorem KeptCls.after_own {k : KeptCls} {own : Option ℕ}
    (h : ∀ id, own = some id → k.clsId = some id) {id : ℕ} (hid : ownClsIdAfter own i = some id) :
    (k.after i).clsId = some id := by
  have hor (hor : i.clsId.or own = some id) : i.clsId.or k.clsId = some id := by
    cases hi : i.clsId with
    | none =>
      rw [hi] at hor
      exact h id hor
    | some id' =>
      rw [hi] at hor
      exact hor
  cases i with
  | pktBegin | dataStreamInfo | eventRecordBegin => cases hid
  | eventRecordInfo info => exact h id hid
  | _ => exact hor hid

theorem keptCls_of_own {items : List Item} {id : ℕ} (h : ownClsId items = some id) :
    (keptCls items).clsId = some id := by
  have hfold : ∀ (items : List Item) (k : KeptCls) (own : Option ℕ),
      (∀ id, own = some id → k.clsId = some id) → ∀ id, items.foldl ownClsIdAfter own = some id →
        (items.foldl KeptCls.after k).clsId = some id := by
    intro items
    induction items with
    | nil => exact fun k own h => h
    | cons i items ih => exact fun k own h => ih _ _ fun id => KeptCls.after_own h
  exact hfold items {} none (fun _ => nofun) id h

/-! ## What each step keeps -/

def Follows (k : KeptCls) (items : List Item) (a : Agenda) : Prop :=
  a.dec.keptCls = items.foldl KeptCls.after k

theorem Dec.Reads.keptCls (h : d.Reads d') : d'.keptCls = d.keptCls := by
  rw [h]
  rfl

section
variable {m : Medium} {tasks rest : List Task} {phase : Phase} {d : Dec}

theorem tryDec_follows {α : Type} {p : DecM α} {k : α → Dec → Answer} (hp : Moves Dec.Reads p)
    (hk : ∀ a d', (k a d').Gives (Follows d'.keptCls)) :
    (tryDec p tasks phase d k).Gives (Follows d.keptCls) := by
  refine tryDec_rule (Q := fun r => r.Gives (Follows d.keptCls)) (fun a d' h => ?_) (fun d' h => ?_)
    fun _ => trivial
  · rw [← (hp.ok h).keptCls]
    exact hk a d'
  · exact (hp.error h).keptCls

theorem skipLoop_keptCls (h : skipLoop m c n (d, r) = .ok () (d', r')) : d'.keptCls = d.keptCls :=
  Dec.Reads.keptCls ((skipLoop_reads m c n).ok h)

theorem skipLoop_keptCls_error {e : Exc} (h : skipLoop m c n (d, r) = .error e (d', r')) :
    d'.keptCls = d.keptCls :=
  Dec.Reads.keptCls ((skipLoop_reads m c n).error h)

theorem tryAlign_follows {align : ℕ} {k : Dec → Answer}
    (hk : ∀ d', (k d').Gives (Follows d'.keptCls)) :
    (tryAlign m align tasks phase d k).Gives (Follows d.keptCls) := by
  refine tryAlign_rule (Q := fun r => r.Gives (Follows d.keptCls)) (fun d' r _ h => ?_)
    (fun d' r _ h => ?_) fun _ => trivial
  · rw [← skipLoop_keptCls h]
    exact hk d'
  · exact skipLoop_keptCls_error h

theorem keptCls_handleRoles (roles : List UIntFieldRole) (len val : ℕ) (d : Dec) (i : Option Item) :
    (roles.foldl (fun (d, i) role =>
      let d' := handleUIntFieldRole role len val d
      (d', match role with
        | .pktMagicNumber => some (.pktMagicNumber val)
        | .defClkTs => some (.defClkVal d'.defClkVal)
        | _ => i)) (d, i)).1.keptCls =
      ⟨if roles.any UIntFieldRole.isClsId then some val else d.curClsId, d.eventRecordInfo.cls⟩ := by
  induction roles generalizing d i with
  | nil => rfl
  | cons role roles ih =>
    rw [List.foldl_cons, ih, List.any_cons]
    cases role <;> simp [UIntFieldRole.isClsId, handleUIntFieldRole]

theorem afterUInt_follows {len : ℕ}
    (hi : i = .fixedLenField .uInt sfc val ∨ ∃ len, i = .varLenIntField false sfc val len) :
    (afterUInt sfc len val i rest phase d).Gives (Follows d.keptCls) := by
  have hkept := keptCls_handleRoles sfc.roles len val.toNat
    (saveKeyVal sfc.keyValSavingIndexes val.toNat d) none
  have hafter : d.keptCls.after i =
      ⟨if sfc.roles.any UIntFieldRole.isClsId then some val.toNat else d.curClsId,
        d.eventRecordInfo.cls⟩ := by
    obtain rfl | ⟨len, rfl⟩ := hi <;> simp only [KeptCls.after, Item.clsId, Dec.keptCls] <;>
      split <;> rfl
  exact hkept.trans hafter.symm

theorem afterFixedLen_follows {kind : FixedLenKind} (hkind : kind ≠ .uInt) :
    (afterFixedLen kind sfc val (.fixedLenField kind sfc val) rest phase d).Gives
      (Follows d.keptCls) := by
  have hafter : d.keptCls.after (.fixedLenField kind sfc val) = d.keptCls := by
    cases kind with
    | uInt => exact absurd rfl hkind
    | _ => rfl
  unfold afterFixedLen
  split
  · split
    · split
      · exact hafter.symm
      · trivial
    · trivial
  · exact hafter.symm

theorem readScalar_follows (sfc : ScalarFc) :
    (readScalar m sfc rest phase d).Gives (Follows d.keptCls) := by
  cases sfc with
  | fixedLen kind fc roles indexes =>
    refine tryDec_follows (readFixedLenInt_reads m _ _ fc) fun val d' => ?_
    split
    · rename_i hkind
      subst hkind
      exact afterUInt_follows (.inl rfl)
    · rename_i hkind
      exact afterFixedLen_follows hkind
  | varLenInt isSigned roles indexes =>
    refine tryDec_follows (p := fun d => varLenLoop m isSigned (varLenFuel d) d)
      (fun d => varLenLoop_reads m isSigned (varLenFuel d) d) fun r d' => ?_
    obtain ⟨val, len⟩ := r
    cases isSigned with
    | true => rfl
    | false => exact afterUInt_follows (.inr ⟨len, rfl⟩)

theorem doTask_follows {task : Task} {q : Fc → Bool} (h : TasksReady q (task :: rest)) :
    (doTask m rest phase d task).Gives (Follows d.keptCls) := by
  cases task with
  | skip len =>
    simp only [doTask]
    split
    · rename_i hs
      exact skipLoop_keptCls hs
    · rename_i hs
      exact skipLoop_keptCls_error hs
    · trivial
  | field fc =>
    cases fc with
    | scalar sfc => exact tryAlign_follows fun d' => readScalar_follows sfc
    | _ =>
      refine tryAlign_follows fun d' => ?_
      split
      · rfl
      · trivial
  | endField kind fc => rfl
  | rawData | uuidSection => exact tryDec_follows (readRawData_reads m _) fun bytes d' => rfl
  | substr cu part => exact tryDec_follows (readSubstr_reads m cu part) fun r d' => rfl
  | uuidByte fc uuid =>
    exact tryAlign_follows fun d' =>
      tryDec_follows (readFixedLenInt_reads m _ _ fc) fun val d'' => rfl
  | item i =>
    have hextra : i.isExtra = true := h (.item i) (List.mem_cons_self ..)
    cases i with
    | pktMagicNumber | defClkVal | metadataStreamUuid => rfl
    | _ => cases hextra

def Tracks (items : List Item) (a : Agenda) : Prop :=
  a.phase = .init ∨ a.phase = .tryBeginPkt ∨ Follows {} items a

theorem setDataStreamInfo_keptCls {tc : TraceCls} (h : setDataStreamInfo tc d = .ok () d') :
    d'.keptCls = { d.keptCls with clsId := none } := by
  simp only [setDataStreamInfo, get_bind_apply] at h
  cases hid : d.curClsId with
  | some id =>
    simp only [hid] at h
    cases hfind : tc.find id <;> rw [hfind] at h <;> cases h
    rfl
  | none =>
    have hkept : d.keptCls = { d.keptCls with clsId := none } :=
      congrArg (KeptCls.mk · d.eventRecordInfo.cls) hid
    simp only [hid] at h
    rcases hclss : tc.dataStreamClss with _ | ⟨cls, _ | ⟨cls', clss⟩⟩ <;> rw [hclss] at h <;>
      cases h <;> exact hkept

theorem tryBeginScope_follows (tc : TraceCls) (scope : Scope) (fc : Option StructFc) (head : ℕ) :
    (doPhase tc m d (.tryBeginScope scope fc head)).Gives (Follows d.keptCls) := by
  cases fc with
  | some fc => rfl
  | none =>
    simp only [doPhase]
    split
    · rfl
    · trivial

theorem doPhase_follows (tc : TraceCls)
    (hphase : phase ≠ .init ∧ phase ≠ .tryBeginPkt ∧ phase ≠ .endPkt) :
    (doPhase tc m d phase).Gives (Follows d.keptCls) := by
  cases phase with
  | init | tryBeginPkt | endPkt => simp at hphase
  | beginPktContent => rfl
  | endPktContent =>
    simp only [doPhase]
    split
    · rfl
    · split
      · rename_i hs
        exact skipLoop_keptCls hs
      · rename_i hs
        exact skipLoop_keptCls_error hs
      · trivial
  | skipEndPadding len =>
    simp only [doPhase]
    split
    · rename_i hs
      exact skipLoop_keptCls hs
    · rename_i hs
      exact skipLoop_keptCls_error hs
    · trivial
  | done => trivial
  | tryBeginScope scope fc head => exact tryBeginScope_follows tc scope fc head
  | endScope scope head =>
    simp only [doPhase]
    split
    · rfl
    · trivial
  | setDataStreamInfo =>
    exact tryDec_rule (Q := fun r => r.Gives (Follows d.keptCls))
      (fun _ d' h => setDataStreamInfo_keptCls h)
      (fun d' h => absurd h (setDataStreamInfo_never tc d d')) fun _ => trivial
  | setPktInfo =>
    refine tryDec_rule (Q := fun r => r.Gives (Follows d.keptCls)) (fun _ d' h => ?_)
      (fun d' h => absurd h (setPktInfo_never d d')) fun _ => trivial
    change d'.keptCls = d.keptCls
    rw [(setPktInfo_ok h).1]
    rfl
  | tryBeginEventRecord =>
    refine tryDec_follows (hasEventRecord_reads m) fun b d' => ?_
    split
    · split
      · rfl
      · trivial
    · rfl
  | setEventRecordInfo head =>
    refine tryDec_rule (Q := fun r => r.Gives (Follows d.keptCls)) (fun _ d' h => ?_)
      (fun d' h => absurd h (setEventRecordInfo_never d d')) fun _ => trivial
    change d'.keptCls = { d.keptCls with cls := d'.eventRecordInfo.cls }
    have hid : d'.curClsId = d.curClsId := by rw [(setEventRecordInfo_ok h).2]
    rw [Dec.keptCls, hid]
    rfl
  | endEventRecord head =>
    simp only [doPhase]
    split
    · trivial
    · rfl

theorem reply_tracks (tc : TraceCls) {a : Agenda} {items : List Item}
    (htasks : TasksReady Fc.hasOpts a.tasks) (h : Tracks items a) :
    (a.reply tc m).Gives fun js a' => Tracks (items ++ js) a' := by
  obtain ⟨d, tasks, phase⟩ := a
  -- What follows the items so far
  have hfollows {r : Answer} (hd : d.keptCls = keptCls items) (hr : r.Gives (Follows d.keptCls)) :
      r.Gives fun js a' => Tracks (items ++ js) a' := by
    refine hr.mono fun js a' hjs => .inr (.inr ?_)
    rw [Follows, List.foldl_append]
    exact hjs.trans (by rw [hd]; rfl)
  cases tasks with
  | cons task rest =>
    obtain hphase | hphase | hd := h
    · have hleaves : Leaves Fc.hasOpts phase (doTask m rest phase d task) := doTask_tasks htasks
      exact hleaves.gives.mono fun _ _ hleaves => .inl (hleaves.1.trans hphase)
    · have hleaves : Leaves Fc.hasOpts phase (doTask m rest phase d task) := doTask_tasks htasks
      exact hleaves.gives.mono fun _ _ hleaves => .inr (.inl (hleaves.1.trans hphase))
    · exact hfollows hd (doTask_follows htasks)
  | nil =>
    change (doPhase tc m d phase).Gives _
    cases phase with
    | init => exact .inr (.inl rfl)
    | endPkt => exact .inr (.inl rfl)
    | tryBeginPkt =>
      have hreads : Moves Dec.Reads (if (resetForNewPkt d).remainingBufLen = 0 then tryHaveData m 1
          else pure true : DecM Bool) :=
        .ite ((tryHaveData_requests m 1).mono Dec.Requests.reads) (.pure .refl _)
      refine tryDec_rule (Q := fun r => r.Gives fun js a' => Tracks (items ++ js) a')
        (fun b d' hd' => ?_) (fun _ _ => .inr (.inl rfl)) fun _ => trivial
      cases b with
      | false => trivial
      | true =>
        refine .inr (.inr ?_)
        rw [Follows, List.foldl_append]
        exact (hreads.ok hd').keptCls
    | _ =>
      refine hfollows ((h.resolve_left nofun).resolve_left nofun) (doPhase_follows tc ?_)
      exact ⟨nofun, nofun, nofun⟩

end

/-! ## The class of an event record -/

def ownAnswer (cls : DataStreamCls) : Option ℕ → Except Err (Option EventRecordCls)
  | some id =>
    match cls.find id with
    | some erCls => .ok (some erCls)
    | none => .error (.noEventRecordCls id cls.id)
  | none =>
    match cls.eventRecordClss with
    | [erCls] => .ok (some erCls)
    | _ => .ok none

def Answers (tc : TraceCls) (m : Medium) (s : Iter) (answer : Except Err (Option EventRecordCls)) :
    Prop :=
  (∃ info s', reply tc m s = .item (.eventRecordInfo info) s' ∧ answer = .ok info.cls) ∨
    ∃ offset cause, reply tc m s = .failed (.error offset cause) ∧ answer = .error cause

def KeptCls.answer (k : KeptCls) (cls : DataStreamCls) : Except Err (Option EventRecordCls) :=
  match k.clsId, cls.eventRecordClss with
  | none, [] | none, _ :: _ :: _ => .ok k.cls
  | id, _ => ownAnswer cls id

section
variable {tc : TraceCls} {m : Medium} {s : Iter} {a : Agenda} {cls : DataStreamCls}

theorem setEventRecordCls_answer (cls : DataStreamCls) (d : Dec) :
    (∃ d', setEventRecordCls cls d = .ok () d' ∧
        d.keptCls.answer cls = .ok d'.eventRecordInfo.cls) ∨
      ∃ offset cause d', setEventRecordCls cls d = .error (.error offset cause) d' ∧
        d.keptCls.answer cls = .error cause := by
  simp only [setEventRecordCls, get_bind_apply, KeptCls.answer, Dec.keptCls]
  cases hid : d.curClsId with
  | some id =>
    simp only [ownAnswer]
    cases cls.find id with
    | some erCls => exact .inl ⟨_, rfl, rfl⟩
    | none => exact .inr ⟨_, _, _, rfl, rfl⟩
  | none =>
    simp only [ownAnswer]
    rcases cls.eventRecordClss with _ | ⟨erCls, _ | ⟨erCls', erClss⟩⟩ <;> exact .inl ⟨_, rfl, rfl⟩

theorem setEventRecordInfo_answer (hcls : d.dataStreamInfo.cls = some cls) :
    (∃ d', setEventRecordInfo d = .ok cls d' ∧ d.keptCls.answer cls = .ok d'.eventRecordInfo.cls) ∨
      ∃ offset cause d', setEventRecordInfo d = .error (.error offset cause) d' ∧
        d.keptCls.answer cls = .error cause := by
  simp only [setEventRecordInfo, get_bind_apply, hcls]
  rw [bind_apply]
  obtain ⟨d', hset, hanswer⟩ | ⟨offset, cause, d', hset, hanswer⟩ := setEventRecordCls_answer cls d
  · rw [hset]
    by_cases hclk : cls.hasDefClkCls = true
    · exact .inl ⟨{ d' with eventRecordInfo := { d'.eventRecordInfo with defClkVal := some d'.defClkVal } },
        by simp only [hclk, if_true]; rfl, hanswer⟩
    · exact .inl ⟨d', by simp only [hclk]; rfl, hanswer⟩
  · rw [hset]
    exact .inr ⟨_, _, _, rfl, hanswer⟩

theorem Rel.of_setEventRecordInfo (h : Rel s a) (hs : s.state = .setEventRecordInfoItem) :
    a = ⟨s.toDec, [], .setEventRecordInfo s.curEventRecordHeadOffsetInCurPkt⟩ := by
  cases h with
  | phase h =>
    cases h with
    | setEventRecordInfo => rfl
    | _ => simp_all
  | task h =>
    cases h with
    | @field fc rest phase s₀ hframes hstate hstack hscalar =>
      rw [hs] at hstate
      cases fc with
      | scalar sfc => cases sfc <;> cases hstate
      | strBlob sfc => cases sfc <;> cases hstate
      | _ => cases hstate
    | _ => simp_all
  | skip hstate h => simp_all

theorem answers_kept (h : Rel s a) (hs : s.state = .setEventRecordInfoItem)
    (hcls : s.dataStreamInfo.cls = some cls) : Answers tc m s (s.keptCls.answer cls) := by
  have hrel := reply_sim tc m h
  rw [h.of_setEventRecordInfo hs] at hrel
  simp only [Agenda.reply, doPhase, tryDec] at hrel
  obtain ⟨d', hset, hanswer⟩ | ⟨offset, cause, d', hset, hanswer⟩ := setEventRecordInfo_answer hcls
  · rw [hset] at hrel
    generalize hr : reply tc m s = r at hrel
    cases hrel with
    | item i h' => exact .inl ⟨_, _, hr, hanswer⟩
  · rw [hset] at hrel
    generalize hr : reply tc m s = r at hrel
    cases hrel with
    | failed e => exact .inr ⟨_, _, hr, hanswer⟩

/-- The class of an event record is the one of its own header exactly when there's a class ID, or
when nothing is kept of what was decoded before. -/
theorem eventRecordCls_own_iff (tc : TraceCls) (P : Medium → Prop) {items : List Item} {s : Iter}
    (hsteps : Steps (reply tc) (fun _ => P) {} items s) (hs : s.state = .setEventRecordInfoItem)
    {cls : DataStreamCls} (hcls : s.dataStreamInfo.cls = some cls)
    (hseveral : 2 ≤ cls.eventRecordClss.length) (m : Medium) :
    ∃ answer, Answers tc m s answer ∧ (answer = ownAnswer cls (ownClsId items) ↔
      ownClsId items ≠ none ∨ (keptCls items).clsId = none ∧ (keptCls items).cls = none) := by
  obtain ⟨a, hsteps, hrel⟩ := steps_agenda (.phase (.init rfl)) hsteps
  have hsteps : Tracks ([] ++ items) a := by
    refine (hsteps.invariant (I := fun items a => TasksReady Fc.hasOpts a.tasks ∧ Tracks items a)
      (fun {m a is} _ h => ?_) ⟨.of_ok .nil, .inl rfl⟩).2
    have htracks := reply_tracks (m := m) tc h.1 h.2
    have htasks := reply_hasOpts tc m h.1
    cases hr : a.reply tc m with
    | «continue» | item | again =>
      rw [hr] at htracks htasks
      exact ⟨htasks, htracks⟩
    | ended | failed => trivial
  have hkept : s.keptCls = keptCls items := by
    rw [hrel.of_setEventRecordInfo hs] at hsteps
    exact (hsteps.resolve_left nofun).resolve_left nofun
  refine ⟨_, answers_kept hrel hs hcls, ?_⟩
  rw [hkept]
  obtain ⟨erCls, erCls', erClss, herClss⟩ : ∃ erCls erCls' erClss,
      cls.eventRecordClss = erCls :: erCls' :: erClss := by
    match h : cls.eventRecordClss with
    | [] | [_] => simp [h] at hseveral
    | erCls :: erCls' :: erClss => exact ⟨erCls, erCls', erClss, rfl⟩
  cases hown : ownClsId items with
  | some id => simp [KeptCls.answer, keptCls_of_own hown]
  | none =>
    cases hid : (keptCls items).clsId with
    | none => simp [KeptCls.answer, hid, herClss, ownAnswer]
    | some id =>
      have hanswer : (keptCls items).answer cls = ownAnswer cls (some id) := by
        simp only [KeptCls.answer, hid]
      have hnone : ownAnswer cls none = .ok none := by simp only [ownAnswer, herClss]
      have hne : ownAnswer cls (some id) ≠ .ok none := by
        simp only [ownAnswer]
        cases cls.find id <;> simp
      simp [hanswer, hnone, hne]

end
/-! ## A header of which the class ID is optional -/

/-- The header is a byte followed by a class ID if it's 1. -/
def optionalIdCls : DataStreamCls where
  id := 0
  pktCtxFc := none
  eventRecordHeaderFc := some { align := 8, members := [
    .scalar (.fixedLen .uInt { align := 8, len := 8, byteOrder := .big, bitOrder := .lastToFirst } [] [0]),
    .optional (.int false [(1, 1)]) 0 (byteFc [.eventRecordClsId])] }
  commonEventRecordCtxFc := none
  hasDefClkCls := false
  eventRecordClss := [{ id := 0, specCtxFc := none, payloadFc := none },
    { id := 1, specCtxFc := none, payloadFc := none }]

def optionalIdTraceCls : TraceCls where
  pktHeaderFc := none
  dataStreamClss := [optionalIdCls]

def optionalIdMedium (id : UInt8) : Medium := .ofBytes [1, id, 0] 8

theorem eventRecordCls_own_iff_first : ∃ items s cls answer,
    Steps (reply optionalIdTraceCls) (fun _ => (· = optionalIdMedium 1)) {} items s ∧
      s.dataStreamInfo.cls = some cls ∧ Answers optionalIdTraceCls (optionalIdMedium 1) s answer ∧
      answer = ownAnswer cls (some 1) := by
  have heval : evalStepsCheck (reply optionalIdTraceCls) (optionalIdMedium 1) (fun _ => true) 16 {}
      (fun items s => s.state = .setEventRecordInfoItem ∧ ownClsId items = some 1 ∧
        s.dataStreamInfo.cls.map (·.eventRecordClss.length) = some 2) = true := by decide +kernel
  obtain ⟨items, s, hsteps, hcheck⟩ := evalStepsCheck_sound
    (P := fun _ => (· = optionalIdMedium 1)) (fun _ _ => rfl) heval
  obtain ⟨hstate, hown, hlen⟩ := of_decide_eq_true hcheck
  obtain ⟨cls, hcls, hlen⟩ := Option.map_eq_some_iff.mp hlen
  obtain ⟨answer, hanswers, hiff⟩ := eventRecordCls_own_iff optionalIdTraceCls _ hsteps hstate hcls
    hlen.ge (optionalIdMedium 1)
  rw [hown] at hiff
  exact ⟨items, s, cls, answer, hsteps, hcls, hanswers, hiff.mpr (.inl nofun)⟩

def recordClss (own : Option ℕ) : List Item → List (Option ℕ × Option ℕ)
  | [] => []
  | .eventRecordInfo info :: items => (own, info.cls.map (·.id)) :: recordClss own items
  | i :: items => recordClss (ownClsIdAfter own i) items

theorem optionalId_run (id : UInt8) (hid : id = 0 ∨ id = 1) :
    ∃ items, Run optionalIdTraceCls (Alone (optionalIdMedium id)) {} items .ended ∧
      recordClss none items = [(some id.toNat, some id.toNat), (none, some id.toNat)] := by
  have heval : evalCheck (reply optionalIdTraceCls) (fun _ _ => optionalIdMedium id) 60 {}
      (fun items o => o = .ended ∧
        recordClss none items = [(some id.toNat, some id.toNat), (none, some id.toNat)]) = true := by
    obtain rfl | rfl := hid <;> decide +kernel
  obtain ⟨items, o, hrun, hc⟩ :=
    evalCheck_sound (P := Alone (optionalIdMedium id)) (fun _ _ => rfl) heval
  obtain ⟨rfl, hclss⟩ := of_decide_eq_true hc
  exact ⟨items, run_iff_runs.mpr hrun, hclss⟩

/-- The second event record, the same in both sequences, gets the class of the first one. -/
theorem eventRecordCls_of_previous :
    (∃ items, Run optionalIdTraceCls (Alone (optionalIdMedium 0)) {} items .ended ∧
      recordClss none items = [(some 0, some 0), (none, some 0)]) ∧
    ∃ items, Run optionalIdTraceCls (Alone (optionalIdMedium 1)) {} items .ended ∧
      recordClss none items = [(some 1, some 1), (none, some 1)] :=
  ⟨optionalId_run 0 (.inl rfl), optionalId_run 1 (.inr rfl)⟩

end Babeltrace.ItemSeq
