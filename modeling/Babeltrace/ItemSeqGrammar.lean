import Babeltrace.ItemSeqReads
import Babeltrace.ItemSeqRefine

/-!
# Grammar of item sequences

The expected item sequence of `item-seq-iter.hpp`, as languages over items which follow the classes.
The language of an agenda is what may follow it: each of its replies produces words of its language
(`reply_produces`).
-/
namespace Babeltrace.ItemSeq
open Machine Program Computability

/-! ## Fields -/

def RoleWord (roles : List UIntFieldRole) (val : ℕ) (is : List Item) : Prop :=
  (.pktMagicNumber ∉ roles ∧ .defClkTs ∉ roles ∧ is = []) ∨
    (.pktMagicNumber ∈ roles ∧ is = [.pktMagicNumber val]) ∨
    (.defClkTs ∈ roles ∧ ∃ cycles, is = [.defClkVal cycles])

inductive ScalarWord : ScalarFc → List Item → Prop
  | fixedLen {kind fc roles indexes} (val : ℤ) (h : kind ≠ .uInt) :
      ScalarWord (.fixedLen kind fc roles indexes)
        [.fixedLenField kind (.fixedLen kind fc roles indexes) val]
  | fixedLenUInt {fc roles indexes is} (val : ℤ) (h : RoleWord roles val.toNat is) :
      ScalarWord (.fixedLen .uInt fc roles indexes)
        (.fixedLenField .uInt (.fixedLen .uInt fc roles indexes) val :: is)
  | varLenSInt {roles indexes} (val : ℤ) (len : ℕ) :
      ScalarWord (.varLenInt true roles indexes)
        [.varLenIntField true (.varLenInt true roles indexes) val len]
  | varLenUInt {roles indexes is} (val : ℤ) (len : ℕ) (h : RoleWord roles val.toNat is) :
      ScalarWord (.varLenInt false roles indexes)
        (.varLenIntField false (.varLenInt false roles indexes) val len :: is)

/-- Raw data items which hold `len` bytes -/
def rawDataLang (len : ℕ) : Language Item :=
  {w | ∃ chunks : List (List UInt8), chunks.flatten.length = len ∧ w = chunks.map .rawData}

def substrLang : Language Item :=
  {w | ∃ chunks : List (List UInt8), chunks ≠ [] ∧ w = chunks.map .rawData}

def uuidBlobLang (uuid : List UInt8) : Language Item :=
  {w | ∃ chunks : List (List UInt8), (uuid ++ chunks.flatten).length = 16 ∧
    w = chunks.map .rawData ++ [.metadataStreamUuid (uuid ++ chunks.flatten)]}

def uuidArrayLang (fc : FixedLenBitArrayFc) (uuid : List UInt8) : Language Item :=
  {w | ∃ vals : List ℤ, (uuid ++ vals.map fun val => UInt8.ofNat val.toNat).length = 16 ∧
    w = vals.map (.fixedLenField .uInt (.fixedLen .uInt fc [] [])) ++
      [.metadataStreamUuid (uuid ++ vals.map fun val => UInt8.ofNat val.toNat)]}

inductive ContentWord : Fc → ContainerKind → BeginInfo → List Item → Prop
  | nullTerminatedStr {encoding w} (h : w ∈ substrLang) :
      ContentWord (.strBlob (.nullTerminatedStr encoding)) .nullTerminatedStr .none w
  | staticLenStr {encoding len w} (h : w ∈ rawDataLang len) :
      ContentWord (.strBlob (.staticLenStr encoding len)) .staticLenStr .none w
  | dynLenStr {encoding index len w} (h : w ∈ rawDataLang len) :
      ContentWord (.strBlob (.dynLenStr encoding index)) .dynLenStr (.len (8 * len % 2 ^ 64)) w
  | staticLenBlob {len w} (h : w ∈ rawDataLang len) :
      ContentWord (.strBlob (.staticLenBlob len)) .staticLenBlob .none w
  | staticLenBlobWithMetadataStreamUuidRole {w} (h : w ∈ uuidBlobLang []) :
      ContentWord (.strBlob .staticLenBlobWithMetadataStreamUuidRole) .staticLenBlob .none w
  | dynLenBlob {index len w} (h : w ∈ rawDataLang len) :
      ContentWord (.strBlob (.dynLenBlob index)) .dynLenBlob (.len (8 * len % 2 ^ 64)) w
  | staticLenArrayWithMetadataStreamUuidRole {align fc w} (h : w ∈ uuidArrayLang fc []) :
      ContentWord (.staticLenArrayWithMetadataStreamUuidRole align fc) .staticLenArray .none w

inductive Inner : Fc → ContainerKind → BeginInfo → List Fc → Prop
  | struct {align members} : Inner (.struct align members) .struct .none members
  | staticLenArray {align len fc} :
      Inner (.staticLenArray align len fc) .staticLenArray .none (List.replicate len fc)
  | dynLenArray {align index fc} (len : ℕ) :
      Inner (.dynLenArray align index fc) .dynLenArray (.len len) (List.replicate len fc)
  | optional {sel index fc} (selVal : ℤ) (isEnabled : Bool) :
      Inner (.optional sel index fc) sel.kind (.optional selVal isEnabled)
        (if isEnabled then [fc] else [])
  | variant {isSigned ranges index opts optFc} (selVal : ℤ) {i : ℕ} (h : opts[i]? = some optFc) :
      Inner (.variant isSigned ranges index opts) (.variantWithIntSel isSigned)
        (.variant selVal i) [optFc]

inductive FieldsWord : List Fc → List Item → Prop
  | nil : FieldsWord [] []
  | scalar {sfc fcs w w'} (h : ScalarWord sfc w) (rest : FieldsWord fcs w') :
      FieldsWord (.scalar sfc :: fcs) (w ++ w')
  | content {fc kind info fcs w w'} (h : ContentWord fc kind info w) (rest : FieldsWord fcs w') :
      FieldsWord (fc :: fcs) (.fieldBegin kind fc info :: w ++ .fieldEnd kind fc :: w')
  | compound {fc kind info inner fcs w w'} (h : Inner fc kind info inner)
      (content : FieldsWord inner w) (rest : FieldsWord fcs w') :
      FieldsWord (fc :: fcs) (.fieldBegin kind fc info :: w ++ .fieldEnd kind fc :: w')

def fieldsLang (fcs : List Fc) : Language Item := {w | FieldsWord fcs w}

/-! ## Packets -/

def scopeLang (scope : Scope) : Option StructFc → Language Item
  | none => 1
  | some fc => {[.scopeBegin scope]} * (fieldsLang [fc.toFc] * {[.scopeEnd scope]})

def eventRecordLang (cls : DataStreamCls) : Language Item :=
  {[.eventRecordBegin]} * scopeLang .eventRecordHeader cls.eventRecordHeaderFc *
    ⨆ info : EventRecordInfo, {[.eventRecordInfo info]} *
      scopeLang .commonEventRecordCtx cls.commonEventRecordCtxFc *
      scopeLang .specEventRecordCtx (info.cls.bind EventRecordCls.specCtxFc) *
      scopeLang .eventRecordPayload (info.cls.bind EventRecordCls.payloadFc) *
      {[.eventRecordEnd]}

def eventRecordsLang : Option DataStreamCls → Language Item
  | some cls => (eventRecordLang cls)∗
  | none => 1

def pktLang (tc : TraceCls) : Language Item :=
  {[.pktBegin]} * {[.pktContentBegin]} * scopeLang .pktHeader tc.pktHeaderFc *
    ⨆ info : DataStreamInfo, {[.dataStreamInfo info]} *
      scopeLang .pktCtx (info.cls.bind DataStreamCls.pktCtxFc) *
      (⨆ pktInfo : PktInfo, {[.pktInfo pktInfo]}) * eventRecordsLang info.cls *
      {[.pktContentEnd]} * {[.pktEnd]}

def itemSeqLang (tc : TraceCls) : Language Item := (pktLang tc)∗

/-! ## What may follow an agenda -/

def Task.lang : Task → Language Item
  | .skip _ => 1
  | .field fc => fieldsLang [fc]
  | .endField kind fc => {[.fieldEnd kind fc]}
  | .rawData remaining => rawDataLang remaining
  | .substr _ _ => substrLang
  | .uuidSection uuid => uuidBlobLang uuid
  | .uuidByte fc uuid => uuidArrayLang fc uuid
  | .item i => {[i]}

def tasksLang : List Task → Language Item
  | [] => 1
  | task :: tasks => task.lang * tasksLang tasks

def pktEndRest (tc : TraceCls) : Language Item := {[.pktEnd]} * itemSeqLang tc

def eventRecordsRest (tc : TraceCls) (cls : Option DataStreamCls) : Language Item :=
  eventRecordsLang cls * ({[.pktContentEnd]} * pktEndRest tc)

def pktInfoRest (tc : TraceCls) (cls : Option DataStreamCls) : Language Item :=
  (⨆ info : PktInfo, {[.pktInfo info]}) * eventRecordsRest tc cls

def dataStreamInfoRest (tc : TraceCls) : Language Item :=
  ⨆ info : DataStreamInfo, {[.dataStreamInfo info]} *
    (scopeLang .pktCtx (info.cls.bind DataStreamCls.pktCtxFc) * pktInfoRest tc info.cls)

def eventRecordEndRest (tc : TraceCls) (cls : Option DataStreamCls) : Language Item :=
  {[.eventRecordEnd]} * eventRecordsRest tc cls

def payloadRest (tc : TraceCls) (cls : Option DataStreamCls) (erCls : Option EventRecordCls) :
    Language Item :=
  scopeLang .eventRecordPayload (erCls.bind EventRecordCls.payloadFc) * eventRecordEndRest tc cls

def specCtxRest (tc : TraceCls) (cls : Option DataStreamCls) (erCls : Option EventRecordCls) :
    Language Item :=
  scopeLang .specEventRecordCtx (erCls.bind EventRecordCls.specCtxFc) * payloadRest tc cls erCls

def eventRecordInfoRest (tc : TraceCls) (cls : Option DataStreamCls) : Language Item :=
  ⨆ info : EventRecordInfo, {[.eventRecordInfo info]} *
    (scopeLang .commonEventRecordCtx (cls.bind DataStreamCls.commonEventRecordCtxFc) *
      specCtxRest tc cls info.cls)

def scopeRest (tc : TraceCls) (d : Dec) : Scope → Language Item
  | .pktHeader => dataStreamInfoRest tc
  | .pktCtx => pktInfoRest tc d.dataStreamInfo.cls
  | .eventRecordHeader => eventRecordInfoRest tc d.dataStreamInfo.cls
  | .commonEventRecordCtx => specCtxRest tc d.dataStreamInfo.cls d.eventRecordInfo.cls
  | .specEventRecordCtx => payloadRest tc d.dataStreamInfo.cls d.eventRecordInfo.cls
  | .eventRecordPayload => eventRecordEndRest tc d.dataStreamInfo.cls

def Phase.lang (tc : TraceCls) (d : Dec) : Phase → Language Item
  | .init | .tryBeginPkt | .done => itemSeqLang tc
  | .beginPktContent =>
    {[.pktContentBegin]} * (scopeLang .pktHeader tc.pktHeaderFc * dataStreamInfoRest tc)
  | .endPktContent => {[.pktContentEnd]} * pktEndRest tc
  | .skipEndPadding _ | .endPkt => pktEndRest tc
  | .tryBeginScope scope fc _ => scopeLang scope fc * scopeRest tc d scope
  | .endScope scope _ => {[.scopeEnd scope]} * scopeRest tc d scope
  | .setDataStreamInfo => dataStreamInfoRest tc
  | .setPktInfo => pktInfoRest tc d.dataStreamInfo.cls
  | .tryBeginEventRecord => eventRecordsRest tc d.dataStreamInfo.cls
  | .setEventRecordInfo _ => eventRecordInfoRest tc d.dataStreamInfo.cls
  | .endEventRecord _ => eventRecordEndRest tc d.dataStreamInfo.cls

def Agenda.lang (tc : TraceCls) (a : Agenda) : Language Item :=
  tasksLang a.tasks * a.phase.lang tc a.dec

/-! ## Words -/

variable {i : Item} {w : List Item} {L : Language Item} {fc : Fc} {tasks : List Task} {d' : Dec}
  {task : Task} {sfc : ScalarFc} {bytes : List UInt8} {fcs : List Fc} {w' : List Item} {len : ℕ}
  {α : Type} {p : DecM α} {k : α → Dec → Answer} {uuid : List UInt8} {L' : Language Item}
  {phase' : Phase} {a : Agenda} {s : Iter}

theorem cons_mem_item_mul (h : w ∈ L) :
    i :: w ∈ {[i]} * L :=
  Language.append_mem_mul (Set.mem_singleton [i]) h

theorem mem_one_mul : w ∈ (1 : Language Item) * L ↔ w ∈ L := by
  rw [one_mul]

theorem mem_item_mul :
    w ∈ {[i]} * L ↔ ∃ w' ∈ L, w = i :: w' := by
  rw [Language.mem_mul]
  constructor
  · rintro ⟨a, ha, b, hb, rfl⟩
    rw [Set.mem_singleton_iff.mp ha]
    exact ⟨b, hb, rfl⟩
  · rintro ⟨w', hw', rfl⟩
    exact ⟨[i], rfl, w', hw', rfl⟩

theorem tasksLang_append (ts ts' : List Task) :
    tasksLang (ts ++ ts') = tasksLang ts * tasksLang ts' := by
  induction ts with
  | nil => simp [tasksLang]
  | cons task ts ih => simp only [List.cons_append, tasksLang, ih, mul_assoc]

theorem tasksLang_singleton (task : Task) : tasksLang [task] = task.lang := by
  simp [tasksLang]

theorem FieldsWord.cons (h : FieldsWord [fc] w) (h' : FieldsWord fcs w') :
    FieldsWord (fc :: fcs) (w ++ w') := by
  cases h with
  | scalar h rest =>
    cases rest
    simpa using FieldsWord.scalar h h'
  | content h rest =>
    cases rest
    simpa using FieldsWord.content h h'
  | compound h content rest =>
    cases rest
    simpa using FieldsWord.compound h content h'

theorem tasksLang_fields (h : w ∈ tasksLang (fcs.map .field)) : FieldsWord fcs w := by
  induction fcs generalizing w with
  | nil =>
    rw [show w = [] from h]
    exact .nil
  | cons fc fcs ih =>
    obtain ⟨w₁, h₁, w₂, h₂, rfl⟩ := Language.mem_mul.mp h
    exact .cons h₁ (ih h₂)

theorem tasksLang_items (is : List Item) (h : w ∈ tasksLang (is.map .item)) : w = is := by
  induction is generalizing w with
  | nil => exact h
  | cons i is ih =>
    obtain ⟨w', hw', rfl⟩ := mem_item_mul.mp h
    rw [ih hw']

theorem tasksLang_rawDataTasks (h : w ∈ tasksLang (rawDataTasks len)) : w ∈ rawDataLang len := by
  unfold rawDataTasks at h
  split at h
  · rename_i h0
    rw [show w = [] from h, h0]
    exact ⟨[], rfl, rfl⟩
  · rwa [tasksLang_singleton] at h

variable {d : Dec} {tc : TraceCls} {phase : Phase}

theorem FieldsWord.of_begin {kind : ContainerKind} {info : BeginInfo}
    (hbegin : fc.begin d = .ok (kind, info, tasks)) (h : w ∈ tasksLang tasks) :
    FieldsWord [fc] (.fieldBegin kind fc info :: w ++ [.fieldEnd kind fc]) := by
  have hreplicate (len : ℕ) (elemFc : Fc) :
      List.replicate len (Task.field elemFc) = (List.replicate len elemFc).map .field := by
    rw [List.map_replicate]
  cases fc with
  | scalar sfc => cases hbegin
  | strBlob sfc =>
    refine .content ?_ .nil
    cases sfc with
    | nullTerminatedStr encoding =>
      cases hbegin
      rw [tasksLang_singleton] at h
      exact .nullTerminatedStr h
    | staticLenStr encoding len =>
      cases hbegin
      exact .staticLenStr (tasksLang_rawDataTasks h)
    | dynLenStr encoding index =>
      cases hbegin
      exact .dynLenStr (tasksLang_rawDataTasks h)
    | staticLenBlob len =>
      cases hbegin
      exact .staticLenBlob (tasksLang_rawDataTasks h)
    | staticLenBlobWithMetadataStreamUuidRole =>
      cases hbegin
      rw [tasksLang_singleton] at h
      exact .staticLenBlobWithMetadataStreamUuidRole h
    | dynLenBlob index =>
      cases hbegin
      exact .dynLenBlob (tasksLang_rawDataTasks h)
  | staticLenArray align len elemFc =>
    cases hbegin
    exact .compound .staticLenArray (tasksLang_fields (hreplicate _ _ ▸ h)) .nil
  | staticLenArrayWithMetadataStreamUuidRole align elemFc =>
    cases hbegin
    rw [tasksLang_singleton] at h
    exact .content (.staticLenArrayWithMetadataStreamUuidRole h) .nil
  | dynLenArray align index elemFc =>
    cases hbegin
    exact .compound (.dynLenArray _) (tasksLang_fields (hreplicate _ _ ▸ h)) .nil
  | struct align members =>
    cases hbegin
    exact .compound .struct (tasksLang_fields h) .nil
  | optional sel index fc =>
    cases hbegin
    refine .compound (.optional _ _) (tasksLang_fields ?_) .nil
    generalize (sel.eval d index).2 = isEnabled at h
    cases isEnabled <;> exact h
  | variant isSigned ranges index opts =>
    simp only [Fc.begin] at hbegin
    split at hbegin
    · cases hbegin
    · split at hbegin
      · cases hbegin
      · rename_i hopt
        cases hbegin
        exact .compound (.variant _ hopt) (tasksLang_fields h) .nil

theorem roleWord_handleRoles (roles : List UIntFieldRole) (len val : ℕ) (d : Dec) :
    RoleWord roles val (handleRoles roles len val d).2.toList := by
  unfold handleRoles
  -- The item so far is the one of the roles handled so far.
  have hfold : ∀ (roles done : List UIntFieldRole) (r : Dec × Option Item),
      RoleWord done val r.2.toList → RoleWord (done ++ roles) val
        (roles.foldl (handleRoleItem len val) r).2.toList := by
    intro roles
    induction roles with
    | nil =>
      intro done r h
      simpa using h
    | cons role roles ih =>
      intro done r h
      rw [List.foldl_cons, show done ++ role :: roles = done ++ [role] ++ roles by simp]
      refine ih _ _ ?_
      cases role with
      | pktMagicNumber => exact .inr (.inl ⟨by simp, rfl⟩)
      | defClkTs => exact .inr (.inr ⟨by simp, _, rfl⟩)
      | _ => simpa [RoleWord, handleRoleItem] using h
  exact hfold roles [] (d, none) (.inl ⟨by simp, by simp, rfl⟩)

/-! ## Tasks produce their language -/

def Dec.SameCls (d d' : Dec) : Prop :=
  d'.dataStreamInfo.cls = d.dataStreamInfo.cls ∧ d'.eventRecordInfo.cls = d.eventRecordInfo.cls

theorem Dec.Reads.sameCls (h : d.Reads d') : d.SameCls d' := by
  rw [h]
  exact ⟨rfl, rfl⟩

theorem Dec.SameCls.trans {d'' : Dec} (h : d.SameCls d') (h' : d'.SameCls d'') :
    d.SameCls d'' := ⟨h'.1.trans h.1, h'.2.trans h.2⟩

theorem handleRoles_sameCls (roles : List UIntFieldRole) (len val : ℕ) (d : Dec) :
    d.SameCls (handleRoles roles len val d).1 := by
  unfold handleRoles
  generalize (none : Option Item) = i
  induction roles generalizing d i with
  | nil => exact ⟨rfl, rfl⟩
  | cons role roles ih =>
    refine .trans ?_ (ih _ _)
    cases role <;> exact ⟨rfl, rfl⟩

theorem Phase.lang_sameCls (h : d.SameCls d') (phase : Phase) :
    phase.lang tc d' = phase.lang tc d := by
  have hscope (scope : Scope) : scopeRest tc d' scope = scopeRest tc d scope := by
    cases scope <;> simp only [scopeRest, h.1, h.2]
  cases phase <;> simp only [Phase.lang, hscope, h.1]

section
variable {tc : TraceCls} {m : Medium} {rest : List Task} {phase : Phase} {d : Dec}

theorem mem_lang_append {ts : List Task} (hcls : d.SameCls d')
    (h : w ∈ Agenda.lang tc ⟨d', ts ++ rest, phase⟩) :
    ∃ w₁ ∈ tasksLang ts, ∃ w₂ ∈ Agenda.lang tc ⟨d, rest, phase⟩, w = w₁ ++ w₂ := by
  simp only [Agenda.lang, tasksLang_append, mul_assoc, Phase.lang_sameCls hcls] at h
  obtain ⟨w₁, h₁, w₂, h₂, rfl⟩ := Language.mem_mul.mp h
  exact ⟨w₁, h₁, w₂, h₂, rfl⟩

theorem append_mem_lang (h : w ∈ task.lang) (h' : w' ∈ Agenda.lang tc ⟨d, rest, phase⟩) :
    w ++ w' ∈ Agenda.lang tc ⟨d, task :: rest, phase⟩ := by
  rw [Agenda.lang, tasksLang, mul_assoc]
  exact Language.append_mem_mul h h'

theorem produces_item (ts : List Task) (hcls : d.SameCls d')
    (h : ∀ w ∈ tasksLang ts, i :: w ∈ task.lang) :
    (Reply.item i ⟨d', ts ++ rest, phase⟩ : Answer).Produces (Agenda.lang tc)
      (Agenda.lang tc ⟨d, task :: rest, phase⟩) := by
  intro w hw
  obtain ⟨w₁, h₁, w₂, h₂, rfl⟩ := mem_lang_append hcls hw
  exact append_mem_lang (h w₁ h₁) h₂

theorem lang_skip (r : ℕ) (hcls : d.SameCls d') (tasks : List Task) :
    Agenda.lang tc ⟨d', .skip r :: tasks, phase⟩ = Agenda.lang tc ⟨d, tasks, phase⟩ := by
  simp only [Agenda.lang, tasksLang, Task.lang, one_mul, Phase.lang_sameCls hcls]

theorem lang_sameCls (hcls : d.SameCls d') (tasks : List Task) :
    Agenda.lang tc ⟨d', tasks, phase⟩ = Agenda.lang tc ⟨d, tasks, phase⟩ := by
  simp only [Agenda.lang, Phase.lang_sameCls hcls]

theorem tryDec_produces (hp : Moves Dec.Reads p)
    (hL : ∀ d', d.SameCls d' → L = Agenda.lang tc ⟨d', tasks, phase⟩)
    (hk : ∀ a d', p d = .ok a d' → d.SameCls d' → (k a d').Produces (Agenda.lang tc) L) :
    (tryDec p tasks phase d k).Produces (Agenda.lang tc) L := by
  refine tryDec_rule (fun a d' h => hk a d' h (hp.ok h).sameCls) (fun d' h w hw => ?_)
    fun _ => trivial
  rwa [hL d' (hp.error h).sameCls]

theorem tryAlign_produces {align : ℕ} {k : Dec → Answer} (hk : ∀ d', d.SameCls d' →
      (k d').Produces (Agenda.lang tc) (Agenda.lang tc ⟨d, task :: rest, phase⟩)) :
    (tryAlign m align (task :: rest) phase d k).Produces (Agenda.lang tc)
      (Agenda.lang tc ⟨d, task :: rest, phase⟩) := by
  refine tryAlign_rule (fun d' r _ h => hk d' ?_) (fun d' r _ h w hw => ?_) fun _ => trivial
  · exact Dec.Reads.sameCls ((skipLoop_reads m true _).ok h)
  · rwa [lang_skip r (Dec.Reads.sameCls ((skipLoop_reads m true _).error h))] at hw

theorem ScalarWord.mem_lang (h : ScalarWord sfc w) :
    w ∈ (Task.field (.scalar sfc)).lang := by
  have hw : FieldsWord [.scalar sfc] (w ++ []) := .scalar h .nil
  rwa [List.append_nil] at hw

theorem afterUInt_produces {val : ℤ} (hcls : d.SameCls d')
    (h : ∀ is, RoleWord sfc.roles val.toNat is → ScalarWord sfc (i :: is)) :
    (afterUInt sfc len val i rest phase d').Produces (Agenda.lang tc)
      (Agenda.lang tc ⟨d, .field (.scalar sfc) :: rest, phase⟩) := by
  refine produces_item _ (hcls.trans (.trans ⟨rfl, rfl⟩ (handleRoles_sameCls _ _ _ _)))
    fun w hw => ?_
  rw [tasksLang_items _ hw]
  exact (h _ (roleWord_handleRoles _ _ _ _)).mem_lang

theorem scalarItem_produces (hcls : d.SameCls d') (h : ScalarWord sfc [i]) :
    (Reply.item i ⟨d', rest, phase⟩ : Answer).Produces (Agenda.lang tc)
      (Agenda.lang tc ⟨d, .field (.scalar sfc) :: rest, phase⟩) := by
  refine produces_item [] hcls fun w hw => ?_
  rw [show w = [] from hw]
  exact h.mem_lang

theorem readScalar_produces (sfc : ScalarFc) (hcls : d.SameCls d') :
    (readScalar m sfc rest phase d').Produces (Agenda.lang tc)
      (Agenda.lang tc ⟨d, .field (.scalar sfc) :: rest, phase⟩) := by
  cases sfc with
  | fixedLen kind fc roles indexes =>
    refine tryDec_produces (readFixedLenInt_reads _ _ _ _)
      (fun d'' h => (lang_sameCls (hcls.trans h) _).symm) fun val d'' _ h => ?_
    have hcls' := hcls.trans h
    by_cases hkind : kind = .uInt
    · subst hkind
      exact afterUInt_produces hcls' fun is h => .fixedLenUInt val h
    · simp only [hkind, if_false, afterFixedLen]
      split
      · split
        · split
          · exact scalarItem_produces (hcls'.trans ⟨rfl, rfl⟩) (.fixedLen val hkind)
          · trivial
        · trivial
      · exact scalarItem_produces hcls' (.fixedLen val hkind)
  | varLenInt isSigned roles indexes =>
    refine tryDec_produces (p := fun d => varLenLoop m isSigned (varLenFuel d) d)
      (fun d => varLenLoop_reads m isSigned (varLenFuel d) d)
      (fun d'' h => (lang_sameCls (hcls.trans h) _).symm) fun r d'' _ h => ?_
    have hcls' := hcls.trans h
    obtain ⟨val, len⟩ := r
    cases isSigned with
    | true => exact scalarItem_produces (hcls'.trans ⟨rfl, rfl⟩) (.varLenSInt val len)
    | false => exact afterUInt_produces hcls' fun is h => .varLenUInt val len h

theorem rawData_produces {remaining : ℕ} (hcls : d.SameCls d') (hle : bytes.length ≤ remaining) :
    (Reply.item (.rawData bytes)
      ⟨d', rawDataTasks (remaining - bytes.length) ++ rest, phase⟩ : Answer).Produces
      (Agenda.lang tc) (Agenda.lang tc ⟨d, .rawData remaining :: rest, phase⟩) := by
  refine produces_item _ hcls fun w hw => ?_
  obtain ⟨chunks, hlen, rfl⟩ := tasksLang_rawDataTasks hw
  refine ⟨bytes :: chunks, ?_, rfl⟩
  rw [List.flatten_cons, List.length_append, hlen]
  omega

theorem substr_produces {part part' : List UInt8} {cu : CodeUnit} (found : Bool)
    (hcls : d.SameCls d') :
    (Reply.item (.rawData bytes)
      ⟨d', (if found then [] else [.substr cu part']) ++ rest, phase⟩ : Answer).Produces
      (Agenda.lang tc) (Agenda.lang tc ⟨d, .substr cu part :: rest, phase⟩) := by
  refine produces_item _ hcls fun w hw => ?_
  cases found with
  | true =>
    rw [show w = [] from hw]
    exact ⟨[bytes], by simp, rfl⟩
  | false =>
    simp only [Bool.false_eq_true, if_false, tasksLang_singleton] at hw
    obtain ⟨chunks, -, rfl⟩ := hw
    exact ⟨bytes :: chunks, by simp, rfl⟩

theorem uuidSection_produces (hcls : d.SameCls d') :
    (Reply.item (.rawData bytes)
      ⟨d', uuidTasks (uuid ++ bytes) (.uuidSection (uuid ++ bytes)) ++ rest, phase⟩ :
        Answer).Produces (Agenda.lang tc)
      (Agenda.lang tc ⟨d, .uuidSection uuid :: rest, phase⟩) := by
  refine produces_item _ hcls fun w hw => ?_
  unfold uuidTasks at hw
  split at hw
  · rename_i h16
    rw [tasksLang_items [_] hw]
    exact ⟨[bytes], by simpa using h16, by simp⟩
  · rw [tasksLang_singleton] at hw
    obtain ⟨chunks, hlen, rfl⟩ := hw
    exact ⟨bytes :: chunks, by simpa using hlen, by simp⟩

theorem uuidByte_produces {fc : FixedLenBitArrayFc} (val : ℤ) (hcls : d.SameCls d') :
    (Reply.item (.fixedLenField .uInt (.fixedLen .uInt fc [] []) val)
      ⟨d', uuidTasks (uuid ++ [UInt8.ofNat val.toNat])
        (.uuidByte fc (uuid ++ [UInt8.ofNat val.toNat])) ++ rest, phase⟩ : Answer).Produces
      (Agenda.lang tc) (Agenda.lang tc ⟨d, .uuidByte fc uuid :: rest, phase⟩) := by
  refine produces_item _ hcls fun w hw => ?_
  unfold uuidTasks at hw
  split at hw
  · rename_i h16
    rw [tasksLang_items [_] hw]
    exact ⟨[val], by simpa using h16, by simp⟩
  · rw [tasksLang_singleton] at hw
    obtain ⟨vals, hlen, rfl⟩ := hw
    refine ⟨val :: vals, ?_, by simp⟩
    simp only [List.length_append, List.length_map, List.length_cons, List.length_nil] at hlen ⊢
    omega

theorem doTask_produces (task : Task) :
    (doTask m rest phase d task).Produces (Agenda.lang tc)
      (Agenda.lang tc ⟨d, task :: rest, phase⟩) := by
  cases task with
  | skip len =>
    rw [lang_skip len ⟨rfl, rfl⟩]
    simp only [doTask]
    have hreads := skipLoop_reads m true len
    split <;> rename_i hs
    · intro w hw
      rwa [lang_sameCls (Dec.Reads.sameCls (hreads.ok hs))] at hw
    · intro w hw
      rwa [lang_skip _ (Dec.Reads.sameCls (hreads.error hs))] at hw
    · trivial
  | field fc =>
    cases fc with
    | scalar sfc => exact tryAlign_produces fun d' h => readScalar_produces sfc h
    | _ =>
      refine tryAlign_produces fun d' h => ?_
      split
      · rename_i kind info tasks hbegin
        rw [show ∀ fc, tasks ++ Task.endField kind fc :: rest =
          (tasks ++ [Task.endField kind fc]) ++ rest by simp]
        refine produces_item _ h fun w hw => ?_
        rw [tasksLang_append, tasksLang_singleton] at hw
        obtain ⟨w', hw', _, rfl, rfl⟩ := Language.mem_mul.mp hw
        exact FieldsWord.of_begin hbegin hw'
      · trivial
  | endField | item =>
    refine produces_item [] ⟨rfl, rfl⟩ fun w hw => ?_
    rw [show w = [] from hw]
    exact rfl
  | rawData remaining =>
    exact tryDec_produces (readRawData_reads m remaining) (fun d' h => (lang_sameCls h _).symm)
      fun bytes d' hread h => rawData_produces h (readRawData_length_le hread)
  | substr cu part =>
    refine tryDec_produces (readSubstr_reads m cu part) (fun d' h => (lang_sameCls h _).symm)
      fun r d' hread h => ?_
    obtain ⟨bytes, found, part'⟩ := r
    exact substr_produces found h
  | uuidSection uuid =>
    exact tryDec_produces (readRawData_reads m _) (fun d' h => (lang_sameCls h _).symm)
      fun bytes d' _ h => uuidSection_produces h
  | uuidByte fc uuid =>
    exact tryAlign_produces fun d' h => tryDec_produces (readFixedLenInt_reads m _ _ _)
      (fun d'' h' => (lang_sameCls (h.trans h') _).symm)
      fun val d'' _ h' => uuidByte_produces val (h.trans h')

end

/-! ## Packets produce their language -/

theorem mem_iSup_mul {ι : Type} {L : ι → Language Item} (i : ι) (h : w ∈ L i * L') :
    w ∈ (⨆ i, L i) * L' := by
  rw [Language.iSup_mul]
  exact Language.mem_iSup.mpr ⟨i, h⟩

theorem pktBegin_mem (h : w ∈ {[.pktContentBegin]} *
      (scopeLang .pktHeader tc.pktHeaderFc * dataStreamInfoRest tc)) :
    .pktBegin :: w ∈ itemSeqLang tc := by
  have hw := cons_mem_item_mul (i := .pktBegin) h
  rw [itemSeqLang, ← Language.one_add_self_mul_kstar_eq_kstar]
  refine .inr ?_
  change _ ∈ pktLang tc * itemSeqLang tc
  simp only [dataStreamInfoRest, pktInfoRest, eventRecordsRest, pktEndRest, pktLang, mul_assoc,
    Language.iSup_mul, Language.mul_iSup] at hw ⊢
  exact hw

theorem eventRecordBegin_mem {cls : DataStreamCls}
    (h : w ∈ scopeLang .eventRecordHeader cls.eventRecordHeaderFc *
      eventRecordInfoRest tc (some cls)) :
    .eventRecordBegin :: w ∈ eventRecordsRest tc (some cls) := by
  have hw := cons_mem_item_mul (i := .eventRecordBegin) h
  rw [eventRecordsRest, eventRecordsLang, ← Language.one_add_self_mul_kstar_eq_kstar, add_mul]
  refine .inr ?_
  change _ ∈ eventRecordLang cls * eventRecordsLang (some cls) * _
  simp only [eventRecordInfoRest, specCtxRest, payloadRest, eventRecordEndRest, eventRecordsRest,
    eventRecordLang, Option.bind_some, mul_assoc, Language.iSup_mul, Language.mul_iSup] at hw ⊢
  exact hw

theorem mem_eventRecordsRest (cls : Option DataStreamCls)
    (h : w ∈ {[.pktContentEnd]} * pktEndRest tc) : w ∈ eventRecordsRest tc cls := by
  have hnil : [] ∈ eventRecordsLang cls := by
    cases cls with
    | none => exact Language.nil_mem_one
    | some cls => exact Language.nil_mem_kstar _
  exact Language.append_mem_mul hnil h

theorem afterScope_lang {head : ℕ} {scope : Scope} (h : Phase.afterScope d head scope = some phase)
    : phase.lang tc d = scopeRest tc d scope := by
  cases scope with
  | pktHeader | pktCtx | eventRecordHeader | eventRecordPayload =>
    cases h
    rfl
  | commonEventRecordCtx =>
    simp only [Phase.afterScope] at h
    split at h
    · rename_i hcls
      cases h
      simp only [Phase.lang, scopeRest, specCtxRest, hcls, Option.bind_some]
    · rename_i hcls
      cases h
      simp only [Phase.lang, scopeRest, specCtxRest, payloadRest, hcls, Option.bind_none, scopeLang,
        one_mul]
  | specEventRecordCtx =>
    simp only [Phase.afterScope, Option.map_eq_some_iff] at h
    obtain ⟨cls, hcls, rfl⟩ := h
    simp only [Phase.lang, scopeRest, payloadRest, hcls, Option.bind_some]

section
variable {tc : TraceCls} {m : Medium} {d : Dec}

theorem lang_phase (d : Dec) (phase : Phase) :
    Agenda.lang tc ⟨d, [], phase⟩ = phase.lang tc d := by
  simp only [Agenda.lang, tasksLang, one_mul]

theorem produces_continue (h : ∀ w ∈ phase'.lang tc d', w ∈ phase.lang tc d) :
    (Reply.continue ⟨d', [], phase'⟩ : Answer).Produces (Agenda.lang tc) (phase.lang tc d) := by
  intro w hw
  rw [lang_phase] at hw
  exact h w hw

theorem produces_phaseItem (h : ∀ w ∈ phase'.lang tc d', i :: w ∈ phase.lang tc d) :
    (Reply.item i ⟨d', [], phase'⟩ : Answer).Produces (Agenda.lang tc) (phase.lang tc d) := by
  intro w hw
  rw [lang_phase] at hw
  exact h w hw

theorem tryDec_producesPhase {d₀ : Dec}
    (hagain : ∀ d', p d₀ = .error .tryAgain d' → phase.lang tc d' = phase.lang tc d)
    (hk : ∀ a d', p d₀ = .ok a d' → (k a d').Produces (Agenda.lang tc) (phase.lang tc d)) :
    (tryDec p [] phase d₀ k).Produces (Agenda.lang tc) (phase.lang tc d) := by
  refine tryDec_rule hk (fun d' h w hw => ?_) fun _ => trivial
  rwa [lang_phase, hagain d' h] at hw

theorem tryBeginScope_produces (scope : Scope) (fc : Option StructFc) (head : ℕ) :
    (doPhase tc m d (.tryBeginScope scope fc head)).Produces (Agenda.lang tc)
      ((Phase.tryBeginScope scope fc head).lang tc d) := by
  cases fc with
  | none =>
    simp only [doPhase]
    cases h : Phase.afterScope d head scope with
    | none => trivial
    | some phase =>
      refine produces_continue fun w hw => ?_
      rw [afterScope_lang h] at hw
      exact mem_one_mul.mpr hw
  | some fc =>
    intro w hw
    rw [Agenda.lang, tasksLang_singleton] at hw
    have hw := cons_mem_item_mul (i := .scopeBegin scope) hw
    simp only [Phase.lang, scopeLang, Task.lang, mul_assoc] at hw ⊢
    exact hw

theorem endScope_produces (scope : Scope) (head : ℕ) :
    (doPhase tc m d (.endScope scope head)).Produces (Agenda.lang tc)
      ((Phase.endScope scope head).lang tc d) := by
  simp only [doPhase]
  cases h : Phase.afterScope d head scope with
  | none => trivial
  | some phase =>
    refine produces_phaseItem fun w hw => ?_
    rw [afterScope_lang h] at hw
    exact cons_mem_item_mul hw

theorem endPktContent_produces (hm : m.Ready) :
    (doPhase tc m d .endPktContent).Produces (Agenda.lang tc)
      (Phase.endPktContent.lang tc d) := by
  simp only [doPhase]
  split
  · exact produces_phaseItem fun w hw => cons_mem_item_mul hw
  · split
    · exact produces_phaseItem fun w hw => cons_mem_item_mul hw
    · rename_i hs
      exact absurd hs (skipLoop_never hm _ _ _ _)
    · trivial

theorem setDataStreamInfo_produces :
    (doPhase tc m d .setDataStreamInfo).Produces (Agenda.lang tc)
      (Phase.setDataStreamInfo.lang tc d) := by
  refine tryDec_producesPhase (fun _ _ => rfl) fun _ d' _ => produces_phaseItem fun w hw => ?_
  refine Language.mem_iSup.mpr ⟨d'.dataStreamInfo, cons_mem_item_mul ?_⟩
  cases hcls : d'.dataStreamInfo.cls with
  | none =>
    simp only [hcls, Phase.lang] at hw
    exact mem_one_mul.mpr hw
  | some cls =>
    simp only [hcls, Phase.lang, scopeRest] at hw
    exact hw

theorem setPktInfo_produces :
    (doPhase tc m d .setPktInfo).Produces (Agenda.lang tc) (Phase.setPktInfo.lang tc d) := by
  refine tryDec_producesPhase (fun d' h => absurd h (setPktInfo_never _ _)) fun _ d' h =>
    produces_phaseItem fun w hw => mem_iSup_mul d'.pktInfo (cons_mem_item_mul ?_)
  have hcls : d'.dataStreamInfo = d.dataStreamInfo := by
    rw [(setPktInfo_ok h).1]
    rfl
  simpa only [Phase.lang, hcls] using hw

theorem tryBeginEventRecord_produces :
    (doPhase tc m d .tryBeginEventRecord).Produces (Agenda.lang tc)
      (Phase.tryBeginEventRecord.lang tc d) := by
  have hreads := hasEventRecord_reads m
  refine tryDec_producesPhase (fun d' h => Phase.lang_sameCls (hreads.error h).sameCls _)
    fun hasEventRecord d' h => ?_
  have hcls := (hreads.ok h).sameCls
  rw [← Phase.lang_sameCls hcls]
  cases hasEventRecord with
  | true =>
    simp only [if_true]
    cases hds : d'.dataStreamInfo.cls with
    | none => trivial
    | some cls =>
      refine produces_phaseItem fun w hw => ?_
      simp only [Phase.lang, scopeRest, hds] at hw ⊢
      exact eventRecordBegin_mem hw
  | false => exact produces_continue fun w hw => mem_eventRecordsRest _ hw

theorem setEventRecordInfo_produces (head : ℕ) :
    (doPhase tc m d (.setEventRecordInfo head)).Produces (Agenda.lang tc)
      ((Phase.setEventRecordInfo head).lang tc d) := by
  refine tryDec_producesPhase (fun d' h => absurd h (setEventRecordInfo_never _ _)) fun cls d' h =>
    produces_phaseItem fun w hw => ?_
  obtain ⟨hcls, hset⟩ := setEventRecordInfo_ok h
  have hds : d'.dataStreamInfo = d.dataStreamInfo := by rw [hset]
  refine Language.mem_iSup.mpr ⟨d'.eventRecordInfo, cons_mem_item_mul ?_⟩
  simpa only [Phase.lang, scopeRest, hds, hcls, Option.bind_some] using hw

theorem doPhase_produces (hm : m.Ready) (phase : Phase) :
    (doPhase tc m d phase).Produces (Agenda.lang tc) (phase.lang tc d) := by
  cases phase with
  | init => exact produces_continue fun w hw => hw
  | tryBeginPkt =>
    refine tryDec_producesPhase (fun _ _ => rfl) fun hasData d' _ => ?_
    cases hasData with
    | true => exact produces_phaseItem fun w hw => pktBegin_mem hw
    | false => exact Language.nil_mem_kstar _
  | beginPktContent | endPkt => exact produces_phaseItem fun w hw => cons_mem_item_mul hw
  | endPktContent => exact endPktContent_produces hm
  | skipEndPadding len =>
    simp only [doPhase]
    split
    · exact produces_continue fun w hw => hw
    · intro w hw
      rwa [lang_phase] at hw
    · trivial
  | done => trivial
  | tryBeginScope scope fc head => exact tryBeginScope_produces scope fc head
  | endScope scope head => exact endScope_produces scope head
  | setDataStreamInfo => exact setDataStreamInfo_produces
  | setPktInfo => exact setPktInfo_produces
  | tryBeginEventRecord => exact tryBeginEventRecord_produces
  | setEventRecordInfo head => exact setEventRecordInfo_produces head
  | endEventRecord head =>
    simp only [doPhase]
    split
    · trivial
    · exact produces_phaseItem fun w hw => cons_mem_item_mul hw

theorem reply_produces (hm : m.Ready) (a : Agenda) :
    (a.reply tc m).Produces (Agenda.lang tc) (a.lang tc) := by
  obtain ⟨d, tasks, phase⟩ := a
  cases tasks with
  | nil =>
    rw [lang_phase]
    exact doPhase_produces hm phase
  | cons task rest => exact doTask_produces task

end

/-! ## Any part of a run may be completed -/

theorem exists_mem_mul (h : ∃ w, w ∈ L) (h' : ∃ w, w ∈ L') : ∃ w, w ∈ L * L' := by
  obtain ⟨w, hw⟩ := h
  obtain ⟨w', hw'⟩ := h'
  exact ⟨w ++ w', Language.append_mem_mul hw hw'⟩

theorem exists_mem_item (i : Item) : ∃ w, w ∈ ({[i]} : Language Item) := ⟨[i], rfl⟩

theorem exists_roleWord (roles : List UIntFieldRole) (val : ℕ) : ∃ is, RoleWord roles val is :=
  ⟨_, roleWord_handleRoles roles 0 val {}⟩

theorem exists_scalarWord (sfc : ScalarFc) : ∃ w, ScalarWord sfc w := by
  cases sfc with
  | fixedLen kind fc roles indexes =>
    by_cases hkind : kind = .uInt
    · subst hkind
      obtain ⟨is, h⟩ := exists_roleWord roles (0 : ℤ).toNat
      exact ⟨_, .fixedLenUInt 0 h⟩
    · exact ⟨_, .fixedLen 0 hkind⟩
  | varLenInt isSigned roles indexes =>
    cases isSigned with
    | true => exact ⟨_, .varLenSInt 0 7⟩
    | false =>
      obtain ⟨is, h⟩ := exists_roleWord roles (0 : ℤ).toNat
      exact ⟨_, .varLenUInt 0 7 h⟩

theorem exists_mem_rawDataLang (len : ℕ) : ∃ w, w ∈ rawDataLang len :=
  ⟨_, [List.replicate len 0], by simp, rfl⟩

theorem exists_mem_uuidBlobLang (uuid : List UInt8) (h : uuid.length ≤ 16) :
    ∃ w, w ∈ uuidBlobLang uuid := by
  refine ⟨_, [List.replicate (16 - uuid.length) 0], ?_, rfl⟩
  simp only [List.flatten_cons, List.flatten_nil, List.append_nil, List.length_append,
    List.length_replicate]
  omega

theorem exists_mem_uuidArrayLang (fc : FixedLenBitArrayFc) (uuid : List UInt8)
    (h : uuid.length ≤ 16) : ∃ w, w ∈ uuidArrayLang fc uuid := by
  refine ⟨_, List.replicate (16 - uuid.length) 0, ?_, rfl⟩
  simp only [List.length_append, List.length_map, List.length_replicate]
  omega

theorem exists_contentWord (fc : StrBlobFc) : ∃ w, FieldsWord [.strBlob fc] w := by
  cases fc with
  | nullTerminatedStr encoding => exact ⟨_, .content (.nullTerminatedStr ⟨[[]], by simp, rfl⟩) .nil⟩
  | staticLenStr encoding len =>
    obtain ⟨w, h⟩ := exists_mem_rawDataLang len
    exact ⟨_, .content (.staticLenStr h) .nil⟩
  | dynLenStr encoding index =>
    obtain ⟨w, h⟩ := exists_mem_rawDataLang 0
    exact ⟨_, .content (.dynLenStr h) .nil⟩
  | staticLenBlob len =>
    obtain ⟨w, h⟩ := exists_mem_rawDataLang len
    exact ⟨_, .content (.staticLenBlob h) .nil⟩
  | staticLenBlobWithMetadataStreamUuidRole =>
    obtain ⟨w, h⟩ := exists_mem_uuidBlobLang [] (Nat.zero_le 16)
    exact ⟨_, .content (.staticLenBlobWithMetadataStreamUuidRole h) .nil⟩
  | dynLenBlob index =>
    obtain ⟨w, h⟩ := exists_mem_rawDataLang 0
    exact ⟨_, .content (.dynLenBlob h) .nil⟩

theorem exists_word_replicate (h : ∃ w, FieldsWord [fc] w) (n : ℕ) :
    ∃ w, FieldsWord (List.replicate n fc) w := by
  obtain ⟨w, hw⟩ := h
  induction n with
  | zero => exact ⟨_, .nil⟩
  | succ n ih =>
    obtain ⟨w', hw'⟩ := ih
    exact ⟨_, .cons hw hw'⟩

mutual

theorem exists_fieldWord : ∀ fc : Fc, fc.all Fc.hasOpts = true → ∃ w, FieldsWord [fc] w
  | .scalar sfc, _ => by
    obtain ⟨w, h⟩ := exists_scalarWord sfc
    exact ⟨_, .scalar h .nil⟩
  | .strBlob fc, _ => exists_contentWord fc
  | .staticLenArray align len fc, h => by
    rw [Fc.all, Bool.and_eq_true] at h
    obtain ⟨w, hw⟩ := exists_word_replicate (exists_fieldWord fc h.2) len
    exact ⟨_, .compound .staticLenArray hw .nil⟩
  | .staticLenArrayWithMetadataStreamUuidRole align fc, _ => by
    obtain ⟨w, h⟩ := exists_mem_uuidArrayLang fc [] (Nat.zero_le 16)
    exact ⟨_, .content (.staticLenArrayWithMetadataStreamUuidRole h) .nil⟩
  | .dynLenArray align index fc, _ => ⟨_, .compound (.dynLenArray 0) .nil .nil⟩
  | .struct align members, h => by
    rw [Fc.all, Bool.and_eq_true] at h
    obtain ⟨w, hw⟩ := exists_fieldsWord members h.2
    exact ⟨_, .compound .struct hw .nil⟩
  | .optional sel index fc, _ => ⟨_, .compound (.optional 0 false) .nil .nil⟩
  | .variant isSigned ranges index [], h => by
    rw [Fc.all, Bool.and_eq_true] at h
    exact absurd h.1 (by simp [Fc.hasOpts])
  | .variant isSigned ranges index (fc :: opts), h => by
    rw [Fc.all, Bool.and_eq_true, Fc.allOf, Bool.and_eq_true] at h
    obtain ⟨w, hw⟩ := exists_fieldWord fc h.2.1
    exact ⟨_, .compound (.variant 0 (i := 0) rfl) hw .nil⟩

theorem exists_fieldsWord : ∀ fcs : List Fc, Fc.allOf Fc.hasOpts fcs = true →
    ∃ w, FieldsWord fcs w
  | [], _ => ⟨_, .nil⟩
  | fc :: fcs, h => by
    rw [Fc.allOf, Bool.and_eq_true] at h
    obtain ⟨w, hw⟩ := exists_fieldWord fc h.1
    obtain ⟨w', hw'⟩ := exists_fieldsWord fcs h.2
    exact ⟨_, .cons hw hw'⟩

end

theorem exists_mem_tasksLang (h : TasksOk Fc.hasOpts tasks) :
    ∃ w, w ∈ tasksLang tasks := by
  induction tasks with
  | nil => exact ⟨[], rfl⟩
  | cons task tasks ih =>
    refine exists_mem_mul ?_ (ih h.rest)
    have htask : task.Ok Fc.hasOpts := h task List.mem_cons_self
    cases task with
    | skip len => exact htask.elim
    | field fc => exact exists_fieldWord fc htask
    | endField kind fc => exact exists_mem_item _
    | rawData remaining => exact exists_mem_rawDataLang remaining
    | substr cu part => exact ⟨_, [[]], by simp, rfl⟩
    | uuidSection uuid => exact exists_mem_uuidBlobLang uuid (Nat.le_of_lt htask)
    | uuidByte fc uuid => exact exists_mem_uuidArrayLang fc uuid (Nat.le_of_lt htask)
    | item i => exact exists_mem_item i

theorem exists_mem_scopeLang (scope : Scope) (fc : Option StructFc) :
    ∃ w, w ∈ scopeLang scope fc := by
  cases fc with
  | none => exact ⟨[], rfl⟩
  | some fc =>
    exact exists_mem_mul (exists_mem_item _)
      (exists_mem_mul (exists_fieldWord fc.toFc fc.hasOpts) (exists_mem_item _))

section
variable (tc : TraceCls) (cls : Option DataStreamCls) (erCls : Option EventRecordCls)

theorem exists_mem_pktEndRest : ∃ w, w ∈ pktEndRest tc :=
  exists_mem_mul (exists_mem_item _) ⟨[], Language.nil_mem_kstar _⟩

theorem exists_mem_eventRecordsRest : ∃ w, w ∈ eventRecordsRest tc cls := by
  obtain ⟨w, hw⟩ := exists_mem_mul (exists_mem_item .pktContentEnd) (exists_mem_pktEndRest tc)
  exact ⟨w, mem_eventRecordsRest cls hw⟩

theorem exists_mem_pktInfoRest : ∃ w, w ∈ pktInfoRest tc cls :=
  exists_mem_mul ⟨[.pktInfo {}], Language.mem_iSup.mpr ⟨{}, rfl⟩⟩
    (exists_mem_eventRecordsRest tc cls)

theorem exists_mem_dataStreamInfoRest : ∃ w, w ∈ dataStreamInfoRest tc := by
  obtain ⟨w, hw⟩ := exists_mem_mul (exists_mem_item (.dataStreamInfo {}))
    (exists_mem_mul (exists_mem_scopeLang .pktCtx _) (exists_mem_pktInfoRest tc none))
  exact ⟨w, Language.mem_iSup.mpr ⟨{}, hw⟩⟩

theorem exists_mem_eventRecordEndRest : ∃ w, w ∈ eventRecordEndRest tc cls :=
  exists_mem_mul (exists_mem_item _) (exists_mem_eventRecordsRest tc cls)

theorem exists_mem_payloadRest : ∃ w, w ∈ payloadRest tc cls erCls :=
  exists_mem_mul (exists_mem_scopeLang _ _) (exists_mem_eventRecordEndRest tc cls)

theorem exists_mem_specCtxRest : ∃ w, w ∈ specCtxRest tc cls erCls :=
  exists_mem_mul (exists_mem_scopeLang _ _) (exists_mem_payloadRest tc cls erCls)

theorem exists_mem_eventRecordInfoRest : ∃ w, w ∈ eventRecordInfoRest tc cls := by
  obtain ⟨w, hw⟩ := exists_mem_mul (exists_mem_item (.eventRecordInfo {}))
    (exists_mem_mul (exists_mem_scopeLang .commonEventRecordCtx _)
      (exists_mem_specCtxRest tc cls none))
  exact ⟨w, Language.mem_iSup.mpr ⟨{}, hw⟩⟩

theorem exists_mem_scopeRest (d : Dec) (scope : Scope) : ∃ w, w ∈ scopeRest tc d scope := by
  cases scope with
  | pktHeader => exact exists_mem_dataStreamInfoRest tc
  | pktCtx => exact exists_mem_pktInfoRest tc _
  | eventRecordHeader => exact exists_mem_eventRecordInfoRest tc _
  | commonEventRecordCtx => exact exists_mem_specCtxRest tc _ _
  | specEventRecordCtx => exact exists_mem_payloadRest tc _ _
  | eventRecordPayload => exact exists_mem_eventRecordEndRest tc _

theorem exists_mem_phaseLang (d : Dec) (phase : Phase) : ∃ w, w ∈ phase.lang tc d := by
  cases phase with
  | init | tryBeginPkt | done => exact ⟨[], Language.nil_mem_kstar _⟩
  | beginPktContent =>
    exact exists_mem_mul (exists_mem_item _)
      (exists_mem_mul (exists_mem_scopeLang _ _) (exists_mem_dataStreamInfoRest tc))
  | endPktContent => exact exists_mem_mul (exists_mem_item _) (exists_mem_pktEndRest tc)
  | skipEndPadding len => exact exists_mem_pktEndRest tc
  | endPkt => exact exists_mem_pktEndRest tc
  | tryBeginScope scope fc head =>
    exact exists_mem_mul (exists_mem_scopeLang _ _) (exists_mem_scopeRest tc d scope)
  | endScope scope head => exact exists_mem_mul (exists_mem_item _) (exists_mem_scopeRest tc d scope)
  | setDataStreamInfo => exact exists_mem_dataStreamInfoRest tc
  | setPktInfo => exact exists_mem_pktInfoRest tc _
  | tryBeginEventRecord => exact exists_mem_eventRecordsRest tc _
  | setEventRecordInfo head => exact exists_mem_eventRecordInfoRest tc _
  | endEventRecord head => exact exists_mem_eventRecordEndRest tc _

end

theorem doPhase_hasOpts (tc : TraceCls) (m : Medium) (d : Dec) (phase : Phase) :
    (doPhase tc m d phase).Gives fun _ a => TasksOk Fc.hasOpts a.tasks := by
  cases phase with
  | init | beginPktContent | endPkt => exact .nil
  | done => trivial
  | tryBeginPkt =>
    refine tryDec_rule (fun hasData d' _ => ?_) (fun _ _ => .nil) fun _ => trivial
    cases hasData with
    | true => exact .nil
    | false => trivial
  | endPktContent =>
    simp only [doPhase]
    split
    · exact .nil
    · split
      · exact .nil
      · exact .nil
      · trivial
  | skipEndPadding len =>
    simp only [doPhase]
    split
    · exact .nil
    · exact .nil
    · trivial
  | tryBeginScope scope fc head =>
    cases fc with
    | none =>
      simp only [doPhase]
      split
      · exact .nil
      · trivial
    | some fc => exact .cons fc.hasOpts .nil
  | endScope scope head =>
    simp only [doPhase]
    split
    · exact .nil
    · trivial
  | setDataStreamInfo | setPktInfo | setEventRecordInfo =>
    exact tryDec_rule (fun _ _ _ => .nil) (fun _ _ => .nil) fun _ => trivial
  | tryBeginEventRecord =>
    refine tryDec_rule (fun hasEventRecord d' _ => ?_) (fun _ _ => .nil) fun _ => trivial
    cases hasEventRecord with
    | true =>
      simp only [if_true]
      cases d'.dataStreamInfo.cls with
      | none => trivial
      | some cls => exact .nil
    | false => exact .nil
  | endEventRecord head =>
    simp only [doPhase]
    split
    · trivial
    · exact .nil

theorem reply_hasOpts (tc : TraceCls) (m : Medium) (h : TasksReady Fc.hasOpts a.tasks) :
    (a.reply tc m).Gives fun _ a => TasksReady Fc.hasOpts a.tasks := by
  obtain ⟨d, tasks, phase⟩ := a
  cases tasks with
  | nil => exact (doPhase_hasOpts tc m d phase).mono fun _ _ h => .of_ok h
  | cons task rest =>
    have hleaves : Leaves Fc.hasOpts phase (doTask m rest phase d task) := doTask_tasks h
    exact hleaves.gives.mono fun _ _ h => h.2

theorem exists_mem_lang (tc : TraceCls) (h : TasksReady Fc.hasOpts a.tasks) :
    ∃ w, w ∈ a.lang tc := by
  refine exists_mem_mul ?_ (exists_mem_phaseLang tc a.dec a.phase)
  cases htasks : a.tasks with
  | nil => exact ⟨[], rfl⟩
  | cons task rest =>
    rw [htasks] at h
    obtain ⟨len, rfl, h⟩ | h := h.cases
    · rw [tasksLang, Task.lang, one_mul]
      exact exists_mem_tasksLang h
    · exact exists_mem_tasksLang h

theorem exists_agenda (hs : s.state = .init ∨ s.state = .tryBeginReadPkt) :
    ∃ phase, Rel s ⟨s.toDec, [], phase⟩ ∧ ∀ tc d, phase.lang tc d = itemSeqLang tc := by
  obtain hs | hs := hs
  · exact ⟨.init, .phase (.init hs), fun _ _ => rfl⟩
  · exact ⟨.tryBeginPkt, .phase (.tryBeginPkt hs), fun _ _ => rfl⟩

theorem exists_append_mem (tc : TraceCls) {m : Medium} (hm : m.Ready)
    (hs : s.state = .init ∨ s.state = .tryBeginReadPkt) :
    (∀ items s', Steps (reply tc) (Alone m) s items s' → ∃ w, items ++ w ∈ itemSeqLang tc) ∧
      ∀ items, Runs (reply tc) (Alone m) s items .ended → items ∈ itemSeqLang tc := by
  obtain ⟨phase, hrel, hlang⟩ := exists_agenda hs
  have hstart : Agenda.lang tc ⟨s.toDec, [], phase⟩ = itemSeqLang tc := by
    rw [lang_phase, hlang]
  have hready {a : Agenda} {m' : Medium} (h : Alone m a m') :
      (a.reply tc m').Produces (Agenda.lang tc) (a.lang tc) := by
    cases h
    exact reply_produces hm a
  constructor
  · intro items s' hsteps
    obtain ⟨a, hsteps, -⟩ := steps_agenda hrel hsteps
    have hopts := hsteps.keeps (I := fun a : Agenda => TasksReady Fc.hasOpts a.tasks)
      (fun _ h => reply_hasOpts tc _ h) (.of_ok .nil)
    obtain ⟨w, hw⟩ := exists_mem_lang tc hopts
    exact ⟨w, hstart ▸ hsteps.append_mem hready hw⟩
  · intro items hruns
    exact hstart ▸ ((runs_agenda hrel).mp hruns).mem hready

/-- The items of a new iterator, or of one which just sought a packet, form the beginning of a
sequence of packets, which is complete when the iterator returns `nullptr`. -/
theorem next_items_grammar (tc : TraceCls) {m : Medium} (hm : m.Ready)
    (hs : s.state = .init ∨ s.state = .tryBeginReadPkt) :
    (∀ items s', Calls (reply tc) (Alone m) s items s' → ∃ w, items ++ w ∈ itemSeqLang tc) ∧
      ∀ items, Run tc (Alone m) s items .ended → items ∈ itemSeqLang tc := by
  obtain ⟨hsteps, hruns⟩ := exists_append_mem tc hm hs
  exact ⟨fun items s' hcalls => hsteps items s' hcalls.steps,
    fun items hrun => hruns items (run_iff_runs.mp hrun)⟩

theorem next_items_grammar_padded :
    paddedMedium.Ready ∧ ∃ items, Run paddedTraceCls (Alone paddedMedium) {} items .ended ∧
      items.any Item.isPktContentEnd = true ∧ items ∈ itemSeqLang paddedTraceCls := by
  have hready : paddedMedium.Ready := Medium.ofBytes_ready _ _
  obtain ⟨items, hrun, hend⟩ := paddedMedium_run
  exact ⟨hready, items, hrun, hend,
    (next_items_grammar paddedTraceCls hready (.inl rfl)).2 items hrun⟩

end Babeltrace.ItemSeq
