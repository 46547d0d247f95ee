import Mathlib

/-!
# Correlating the clocks of several streams

The first message which `ClockCorrelationValidator` looks at sets an expectation, and each of the
next ones either meets it or makes `validate()` throw. A `CorrKey` is what two clock classes need to
share: a sequence is accepted exactly when all the keys are the same, whatever the order.
-/
namespace Babeltrace.ClkCorrelation

/-- A `bt2::IdentityView`, of which any part may be a null string. -/
structure IdentityView where
  ns : Option String
  name : Option String
  uid : Option String
  deriving DecidableEq, Repr

/-- Without a name or a UID, an identity is the same as no other, itself included. -/
def IdentityView.same (a b : IdentityView) : Bool :=
  if a.name.isNone || a.uid.isNone || b.name.isNone || b.uid.isNone then
    false
  else
    a.ns == b.ns && a.name == b.name && a.uid == b.uid

inductive Origin where
  | unixEpoch
  | unknown
  | custom (ns : Option String) (name uid : String)
  deriving DecidableEq, Repr

namespace Origin

def isUnixEpoch : Origin → Bool
  | unixEpoch => true
  | _ => false

def isKnown : Origin → Bool
  | unknown => false
  | _ => true

def identity : Origin → IdentityView
  | custom ns name uid => ⟨ns, some name, some uid⟩
  | _ => ⟨none, none, none⟩

end Origin

structure ClockClass where
  ns : Option String
  name : Option String
  uid : Option String
  uuid : Option (BitVec 128)
  origin : Origin
  deriving DecidableEq, Repr

def ClockClass.identity (c : ClockClass) : IdentityView := ⟨c.ns, c.name, c.uid⟩

def isSameClockOrigin (a b : Origin) : Bool :=
  if a.isUnixEpoch && b.isUnixEpoch then true
  else if a.isUnixEpoch && !b.isUnixEpoch then false
  else if !a.isUnixEpoch && b.isUnixEpoch then false
  else if a.isKnown && b.isKnown then a.identity.same b.identity
  else false

def clockClassHasKnownAndComparableIdentity (c : ClockClass) (graphMipVersion : ℕ) : Bool :=
  if graphMipVersion = 0 then c.uuid.isSome else c.name.isSome && c.uid.isSome

def clockClassHasKnownAndComparableOrigin (c : ClockClass) (graphMipVersion : ℕ) : Bool :=
  if graphMipVersion = 0 then c.origin.isUnixEpoch else c.origin.isKnown

/-- Messages refer to frozen clock classes, so that one address gives one value. -/
abbrev ClockClassPtr := ℕ

structure StreamClass where
  id : ℕ
  defaultClockClass : Option ClockClassPtr
  deriving DecidableEq, Repr

inductive Msg where
  | streamBeginning (cls : StreamClass)
  | messageIteratorInactivity (clockClass : ClockClassPtr)
  | other
  deriving DecidableEq, Repr

def Msg.clockCls : Msg → Option (Option ClockClassPtr)
  | streamBeginning cls => some cls.defaultClockClass
  | messageIteratorInactivity c => some (some c)
  | other => none

def Msg.streamCls : Msg → Option StreamClass
  | streamBeginning cls => some cls
  | _ => none

inductive ErrorType where
  | expectingNoClockClassGotOne
  | expectingOriginKnownGotNoClockClass
  | expectingOriginKnownGotUnknownOrigin
  | expectingOriginKnownGotOtherOrigin
  | expectingOriginUnknownWithIdGotNoClockClass
  | expectingOriginUnknownWithIdGotKnownOrigin
  | expectingOriginUnknownWithIdGotWithoutId
  | expectingOriginUnknownWithIdGotOtherId
  | expectingOriginUnknownWithoutIdGotNoClockClass
  | expectingOriginUnknownWithoutIdGotOtherClockClass
  deriving DecidableEq, Repr

structure ClockCorrelationError where
  type : ErrorType
  actualClockCls : Option ClockClassPtr
  refClockCls : Option ClockClassPtr
  streamCls : Option StreamClass
  deriving DecidableEq, Repr

/-- With the reference clock class of those which have one -/
inductive PropsExpectation where
  | unset
  | none
  | originKnown (refClockClass : ClockClassPtr)
  | originUnknownWithId (refClockClass : ClockClassPtr)
  | originUnknownWithoutId (refClockClass : ClockClassPtr)
  deriving DecidableEq, Repr

section Validator

variable (heap : ClockClassPtr → ClockClass) (graphMipVersion : ℕ)

def expectationOf : Option ClockClassPtr → PropsExpectation
  | none => .none
  | some c =>
    if clockClassHasKnownAndComparableOrigin (heap c) graphMipVersion then
      .originKnown c
    else if clockClassHasKnownAndComparableIdentity (heap c) graphMipVersion then
      .originUnknownWithId c
    else
      .originUnknownWithoutId c

/-- The private `_validate()` -/
def validateClockCls (exp : PropsExpectation) (clockCls : Option ClockClassPtr)
    (streamCls : Option StreamClass) : Except ClockCorrelationError PropsExpectation :=
  match exp, clockCls with
  | .unset, c => .ok (expectationOf heap graphMipVersion c)
  | .none, some c => .error ⟨.expectingNoClockClassGotOne, some c, none, streamCls⟩
  | .none, none => .ok exp
  | .originKnown ref, none =>
    .error ⟨.expectingOriginKnownGotNoClockClass, none, some ref, streamCls⟩
  | .originKnown ref, some c =>
    if !clockClassHasKnownAndComparableOrigin (heap c) graphMipVersion then
      .error ⟨.expectingOriginKnownGotUnknownOrigin, some c, some ref, streamCls⟩
    else if !isSameClockOrigin (heap c).origin (heap ref).origin then
      .error ⟨.expectingOriginKnownGotOtherOrigin, some c, some ref, streamCls⟩
    else .ok exp
  | .originUnknownWithId ref, none =>
    .error ⟨.expectingOriginUnknownWithIdGotNoClockClass, none, some ref, streamCls⟩
  | .originUnknownWithId ref, some c =>
    if clockClassHasKnownAndComparableOrigin (heap c) graphMipVersion then
      .error ⟨.expectingOriginUnknownWithIdGotKnownOrigin, some c, some ref, streamCls⟩
    else if !clockClassHasKnownAndComparableIdentity (heap c) graphMipVersion then
      .error ⟨.expectingOriginUnknownWithIdGotWithoutId, some c, some ref, streamCls⟩
    else if graphMipVersion = 0 then
      if (heap c).uuid ≠ (heap ref).uuid then
        .error ⟨.expectingOriginUnknownWithIdGotOtherId, some c, some ref, streamCls⟩
      else .ok exp
    else if !(heap c).identity.same (heap ref).identity then
      .error ⟨.expectingOriginUnknownWithIdGotOtherId, some c, some ref, streamCls⟩
    else .ok exp
  | .originUnknownWithoutId ref, none =>
    .error ⟨.expectingOriginUnknownWithoutIdGotNoClockClass, none, some ref, streamCls⟩
  | .originUnknownWithoutId ref, some c =>
    if c ≠ ref then
      .error ⟨.expectingOriginUnknownWithoutIdGotOtherClockClass, some c, some ref, streamCls⟩
    else .ok exp

def validate (exp : PropsExpectation) (msg : Msg) :
    Except ClockCorrelationError PropsExpectation :=
  match msg.clockCls with
  | none => .ok exp
  | some clockCls => validateClockCls heap graphMipVersion exp clockCls msg.streamCls

def Accepts (msgs : List Msg) : Prop :=
  (msgs.foldlM (validate heap graphMipVersion) .unset).isOk

/-! ## What correlates two clock classes -/

/-- A UUID with MIP 0, a name and a UID (and maybe a namespace) otherwise -/
inductive ComparableId where
  | uuid (uuid : BitVec 128)
  | nameUid (ns : Option String) (name uid : String)
  deriving DecidableEq, Repr

def ClockClass.comparableId (c : ClockClass) : Option ComparableId :=
  if graphMipVersion = 0 then
    c.uuid.map .uuid
  else
    match c.name, c.uid with
    | some name, some uid => some (.nameUid c.ns name uid)
    | _, _ => none

/-- Only the Unix epoch with MIP 0, any known origin otherwise -/
def ClockClass.comparableOrigin (c : ClockClass) : Option Origin :=
  if c.origin = .unixEpoch ∨ graphMipVersion ≠ 0 ∧ c.origin ≠ .unknown then some c.origin else none

/-- Both absent, of the same known origin, of an unknown origin and the same identity, or one object
-/
def Correlatable : Option ClockClassPtr → Option ClockClassPtr → Prop
  | none, none => True
  | some a, some b =>
    (∃ o, (heap a).comparableOrigin graphMipVersion = some o ∧
      (heap b).comparableOrigin graphMipVersion = some o) ∨
    ((heap a).comparableOrigin graphMipVersion = none ∧
      (heap b).comparableOrigin graphMipVersion = none ∧
      ∃ i, (heap a).comparableId graphMipVersion = some i ∧
        (heap b).comparableId graphMipVersion = some i) ∨
    a = b
  | _, _ => False

inductive CorrKey where
  | noClock
  | origin (o : Origin)
  | id (i : ComparableId)
  | object (c : ClockClassPtr)

def corrKey : Option ClockClassPtr → CorrKey
  | none => .noClock
  | some c =>
    match (heap c).comparableOrigin graphMipVersion, (heap c).comparableId graphMipVersion with
    | some o, _ => .origin o
    | none, some i => .id i
    | none, none => .object c

variable {heap graphMipVersion} {streamCls : Option StreamClass} {exp : PropsExpectation}
  {ref : ClockClassPtr} {c : Option ClockClassPtr} {msgs : List Msg} {o : Origin} {a b : ClockClass}
  {i j : ComparableId}

theorem IdentityView.same_iff {a b : IdentityView} {n u n' u' : String}
    (hn : a.name = some n) (hu : a.uid = some u) (hn' : b.name = some n') (hu' : b.uid = some u') :
    a.same b = true ↔ a.ns = b.ns ∧ n = n' ∧ u = u' := by
  simp [IdentityView.same, hn, hu, hn', hu', and_assoc]

theorem hasOrigin_iff (c : ClockClass) :
    clockClassHasKnownAndComparableOrigin c graphMipVersion
      = (c.comparableOrigin graphMipVersion).isSome := by
  by_cases h : graphMipVersion = 0 <;> cases ho : c.origin <;>
    simp [clockClassHasKnownAndComparableOrigin, ClockClass.comparableOrigin, Origin.isUnixEpoch,
      Origin.isKnown, h, ho]

theorem hasIdentity_iff (c : ClockClass) :
    clockClassHasKnownAndComparableIdentity c graphMipVersion
      = (c.comparableId graphMipVersion).isSome := by
  by_cases h : graphMipVersion = 0
  · simp [clockClassHasKnownAndComparableIdentity, ClockClass.comparableId, h]
  · cases hn : c.name <;> cases hu : c.uid <;>
      simp [clockClassHasKnownAndComparableIdentity, ClockClass.comparableId, h, hn, hu]

theorem comparableOrigin_eq {c : ClockClass} (h : c.comparableOrigin graphMipVersion = some o) :
    c.origin = o ∧ o ≠ .unknown := by
  unfold ClockClass.comparableOrigin at h
  split at h
  case isTrue hc =>
    obtain rfl : c.origin = o := Option.some.inj h
    exact ⟨rfl, fun hu => by simp [hu] at hc⟩
  case isFalse => cases h

theorem isSameClockOrigin_iff {a b : Origin} (ha : a ≠ .unknown) (hb : b ≠ .unknown) :
    isSameClockOrigin a b = true ↔ a = b := by
  cases a <;> cases b <;>
    simp_all [isSameClockOrigin, Origin.isUnixEpoch, Origin.isKnown, Origin.identity,
      IdentityView.same, and_assoc]

theorem uuid_eq_iff (h0 : graphMipVersion = 0) (ha : a.comparableId graphMipVersion = some i)
    (hb : b.comparableId graphMipVersion = some j) : a.uuid = b.uuid ↔ i = j := by
  simp only [ClockClass.comparableId, h0, if_true, Option.map_eq_some_iff] at ha hb
  obtain ⟨u, hu, rfl⟩ := ha
  obtain ⟨v, hv, rfl⟩ := hb
  simp [hu, hv]

theorem identity_same_iff (h0 : graphMipVersion ≠ 0) (ha : a.comparableId graphMipVersion = some i)
    (hb : b.comparableId graphMipVersion = some j) : a.identity.same b.identity = true ↔ i = j := by
  simp only [ClockClass.comparableId, h0, if_false] at ha hb
  cases hn : a.name <;> cases hu : a.uid <;> cases hn' : b.name <;> cases hu' : b.uid <;>
    simp_all only [reduceCtorEq, Option.some.injEq]
  subst ha hb
  rw [IdentityView.same_iff hn hu hn' hu', ComparableId.nameUid.injEq]
  rfl

/-! ## One message -/

theorem corrKey_eq_origin_iff {c : ClockClassPtr} :
    corrKey heap graphMipVersion (some c) = .origin o ↔
      (heap c).comparableOrigin graphMipVersion = some o := by
  simp only [corrKey]
  split <;> simp_all

theorem corrKey_eq_id_iff {c : ClockClassPtr} {i : ComparableId} :
    corrKey heap graphMipVersion (some c) = .id i ↔
      (heap c).comparableOrigin graphMipVersion = none ∧
        (heap c).comparableId graphMipVersion = some i := by
  simp only [corrKey]
  split <;> simp_all

theorem corrKey_eq_object {c p : ClockClassPtr}
    (h : corrKey heap graphMipVersion (some c) = .object p) : c = p := by
  simp only [corrKey] at h
  split at h <;> simp_all

theorem corrKey_ne_noClock (c : ClockClassPtr) :
    corrKey heap graphMipVersion (some c) ≠ .noClock := by
  simp only [corrKey]
  split <;> simp

theorem validate_originKnown (href : (heap ref).comparableOrigin graphMipVersion = some o) :
    validateClockCls heap graphMipVersion (.originKnown ref) c streamCls = .ok exp ↔
      .originKnown ref = exp ∧ corrKey heap graphMipVersion c = .origin o := by
  cases c with
  | none => simp [validateClockCls, corrKey]
  | some c =>
    simp only [validateClockCls, hasOrigin_iff, corrKey_eq_origin_iff]
    cases hc : (heap c).comparableOrigin graphMipVersion with
    | none => simp
    | some o' =>
      obtain ⟨ho, hknown⟩ := comparableOrigin_eq href
      obtain ⟨ho', hknown'⟩ := comparableOrigin_eq hc
      have hsame := isSameClockOrigin_iff hknown' hknown
      rw [ho, ho']
      by_cases heq : o' = o
      · have hpass := hsame.mpr heq
        subst heq
        simp [hpass]
      · simp [Bool.eq_false_iff.mpr (mt hsame.mp heq), heq]

theorem validate_originUnknownWithId {i : ComparableId}
    (href : (heap ref).comparableId graphMipVersion = some i) :
    validateClockCls heap graphMipVersion (.originUnknownWithId ref) c streamCls = .ok exp ↔
      .originUnknownWithId ref = exp ∧ corrKey heap graphMipVersion c = .id i := by
  cases c with
  | none => simp [validateClockCls, corrKey]
  | some c =>
    simp only [validateClockCls, hasOrigin_iff, hasIdentity_iff, corrKey_eq_id_iff]
    cases hco : (heap c).comparableOrigin graphMipVersion with
    | some o => simp
    | none =>
      cases hci : (heap c).comparableId graphMipVersion with
      | none => simp
      | some j =>
        simp only [Option.isSome_none, Option.isSome_some, Bool.not_true, Bool.false_eq_true,
          if_false, true_and, Option.some.injEq]
        -- the identity is a UUID with MIP 0, a name and a UID otherwise
        by_cases h0 : graphMipVersion = 0
        · rw [if_pos h0]
          by_cases hij : j = i
          · simp [(uuid_eq_iff h0 hci href).mpr hij, hij]
          · simp [mt (uuid_eq_iff h0 hci href).mp hij, hij]
        · rw [if_neg h0]
          by_cases hij : j = i
          · simp [(identity_same_iff h0 hci href).mpr hij, hij]
          · simp [Bool.eq_false_iff.mpr (mt (identity_same_iff h0 hci href).mp hij), hij]

theorem validate_originUnknownWithoutId (hro : (heap ref).comparableOrigin graphMipVersion = none)
    (hri : (heap ref).comparableId graphMipVersion = none) :
    validateClockCls heap graphMipVersion (.originUnknownWithoutId ref) c streamCls = .ok exp ↔
      .originUnknownWithoutId ref = exp ∧ corrKey heap graphMipVersion c = .object ref := by
  cases c with
  | none => simp [validateClockCls, corrKey]
  | some c =>
    by_cases hc : c = ref
    · simp [validateClockCls, corrKey, hc, hro, hri]
    · have hkey : corrKey heap graphMipVersion (some c) ≠ .object ref := mt corrKey_eq_object hc
      simp [validateClockCls, hc, hkey]

theorem validateClockCls_eq_ok_iff {ref c : Option ClockClassPtr} :
    validateClockCls heap graphMipVersion (expectationOf heap graphMipVersion ref) c streamCls
        = .ok exp ↔
      expectationOf heap graphMipVersion ref = exp ∧
        corrKey heap graphMipVersion c = corrKey heap graphMipVersion ref := by
  cases ref with
  | none =>
    cases c with
    | none => simp [validateClockCls, expectationOf]
    | some c =>
      have hkey : corrKey heap graphMipVersion (some c) ≠ corrKey heap graphMipVersion none :=
        corrKey_ne_noClock c
      simp [validateClockCls, expectationOf, hkey]
  | some ref =>
    simp only [expectationOf, hasOrigin_iff, hasIdentity_iff]
    cases hro : (heap ref).comparableOrigin graphMipVersion with
    | some o =>
      rw [corrKey_eq_origin_iff.mpr hro]
      exact validate_originKnown hro
    | none =>
      cases hri : (heap ref).comparableId graphMipVersion with
      | some i =>
        rw [corrKey_eq_id_iff.mpr ⟨hro, hri⟩]
        exact validate_originUnknownWithId hri
      | none =>
        have hkey : corrKey heap graphMipVersion (some ref) = .object ref := by
          simp [corrKey, hro, hri]
        rw [hkey]
        exact validate_originUnknownWithoutId hro hri

/-! ## A whole sequence -/

theorem foldlM_validate_isOk_iff {ref : Option ClockClassPtr} :
    (msgs.foldlM (validate heap graphMipVersion)
        (expectationOf heap graphMipVersion ref)).isOk = true ↔
      ∀ c ∈ msgs.filterMap Msg.clockCls,
        corrKey heap graphMipVersion c = corrKey heap graphMipVersion ref := by
  induction msgs with
  | nil => simp [pure, Except.pure, Except.isOk, Except.toBool]
  | cons msg msgs ih =>
    rw [List.foldlM_cons]
    cases hc : msg.clockCls with
    | none => simpa [validate, hc, bind, Except.bind] using ih
    | some c =>
      have hstep {exp} := @validateClockCls_eq_ok_iff heap graphMipVersion msg.streamCls exp ref c
      simp only [validate, hc, List.filterMap_cons, List.forall_mem_cons]
      cases hv : validateClockCls heap graphMipVersion (expectationOf heap graphMipVersion ref) c
          msg.streamCls with
      | ok exp =>
        obtain ⟨rfl, hkey⟩ := hstep.mp hv
        simpa [bind, Except.bind, hkey] using ih
      | error e =>
        have hkey : corrKey heap graphMipVersion c ≠ corrKey heap graphMipVersion ref :=
          fun hkey => by simp [hstep.mpr ⟨rfl, hkey⟩] at hv
        simp [bind, Except.bind, Except.isOk, Except.toBool, hkey]

theorem accepts_iff_corrKey :
    Accepts heap graphMipVersion msgs ↔
      ∀ a ∈ msgs.filterMap Msg.clockCls, ∀ b ∈ msgs.filterMap Msg.clockCls,
        corrKey heap graphMipVersion a = corrKey heap graphMipVersion b := by
  unfold Accepts
  induction msgs with
  | nil => simp [pure, Except.pure, Except.isOk, Except.toBool]
  | cons msg msgs ih =>
    rw [List.foldlM_cons]
    cases hc : msg.clockCls with
    | none => simpa [validate, hc, bind, Except.bind] using ih
    | some c =>
      -- this message sets the expectation
      simp only [validate, hc, validateClockCls, bind, Except.bind, foldlM_validate_isOk_iff,
        List.filterMap_cons, List.forall_mem_cons]
      constructor
      · intro h
        exact ⟨⟨trivial, fun b hb => (h b hb).symm⟩,
          fun a ha => ⟨h a ha, fun b hb => (h a ha).trans (h b hb).symm⟩⟩
      · exact fun h a ha => (h.2 a ha).1

theorem correlatable_iff {a b : Option ClockClassPtr} :
    Correlatable heap graphMipVersion a b ↔
      corrKey heap graphMipVersion a = corrKey heap graphMipVersion b := by
  cases a with
  | none =>
    cases b with
    | none => simp [Correlatable]
    | some b =>
      simp only [Correlatable, corrKey, false_iff]
      split <;> simp
  | some a =>
    cases b with
    | none =>
      simp only [Correlatable, corrKey, false_iff]
      split <;> simp
    | some b =>
      by_cases hab : a = b
      · simp [Correlatable, hab]
      · cases hao : (heap a).comparableOrigin graphMipVersion <;>
          cases hbo : (heap b).comparableOrigin graphMipVersion <;>
          cases hai : (heap a).comparableId graphMipVersion <;>
          cases hbi : (heap b).comparableId graphMipVersion <;>
          simp [Correlatable, corrKey, hao, hbo, hai, hbi, hab, eq_comm]

theorem correlatable_equivalence : Equivalence (Correlatable heap graphMipVersion) where
  refl _ := correlatable_iff.mpr rfl
  symm h := correlatable_iff.mpr (correlatable_iff.mp h).symm
  trans h₁ h₂ := correlatable_iff.mpr ((correlatable_iff.mp h₁).trans (correlatable_iff.mp h₂))

theorem accepts_iff_correlatable :
    Accepts heap graphMipVersion msgs ↔
      ∀ a ∈ msgs.filterMap Msg.clockCls, ∀ b ∈ msgs.filterMap Msg.clockCls,
        Correlatable heap graphMipVersion a b := by
  simp only [correlatable_iff, accepts_iff_corrKey]

variable (heap graphMipVersion)

def SameClock (clks : List (Option ClockClassPtr)) : Prop :=
  (∀ c ∈ clks, c = none) ∨
  (∃ o, ∀ c ∈ clks, ∃ p, c = some p ∧ (heap p).comparableOrigin graphMipVersion = some o) ∨
  (∃ i, ∀ c ∈ clks, ∃ p, c = some p ∧ (heap p).comparableOrigin graphMipVersion = none ∧
    (heap p).comparableId graphMipVersion = some i) ∨
  (∃ p, ∀ c ∈ clks, c = some p)

variable {heap graphMipVersion}

theorem sameClock_iff {clks : List (Option ClockClassPtr)} :
    SameClock heap graphMipVersion clks ↔
      ∀ a ∈ clks, ∀ b ∈ clks, Correlatable heap graphMipVersion a b := by
  constructor
  · rintro (h | ⟨o, h⟩ | ⟨i, h⟩ | ⟨p, h⟩) a ha b hb
    · rw [h a ha, h b hb]
      trivial
    · obtain ⟨p, rfl, hp⟩ := h a ha
      obtain ⟨q, rfl, hq⟩ := h b hb
      exact .inl ⟨o, hp, hq⟩
    · obtain ⟨p, rfl, hpo, hpi⟩ := h a ha
      obtain ⟨q, rfl, hqo, hqi⟩ := h b hb
      exact .inr (.inl ⟨hpo, hqo, i, hpi, hqi⟩)
    · rw [h a ha, h b hb]
      exact correlatable_equivalence.refl _
  · intro h
    cases clks with
    | nil => exact .inl (by simp)
    | cons ref rest =>
      -- what the first clock class has to compare says which way it is
      have hkey : ∀ c ∈ ref :: rest,
          corrKey heap graphMipVersion c = corrKey heap graphMipVersion ref :=
        fun c hc => correlatable_iff.mp (h c hc ref List.mem_cons_self)
      have hsome : ∀ {k}, corrKey heap graphMipVersion ref = k → k ≠ .noClock →
          ∀ c ∈ ref :: rest, ∃ p, c = some p ∧ corrKey heap graphMipVersion (some p) = k := by
        intro k hk hne c hc
        cases c with
        | none => exact absurd ((hkey none hc).trans hk).symm hne
        | some p => exact ⟨p, rfl, (hkey _ hc).trans hk⟩
      cases hk : corrKey heap graphMipVersion ref with
      | noClock =>
        refine .inl fun c hc => ?_
        cases c with
        | none => rfl
        | some p => exact absurd ((hkey _ hc).trans hk) (corrKey_ne_noClock p)
      | origin o =>
        refine .inr (.inl ⟨o, fun c hc => ?_⟩)
        obtain ⟨p, rfl, hp⟩ := hsome hk (by simp) c hc
        exact ⟨p, rfl, corrKey_eq_origin_iff.mp hp⟩
      | id i =>
        refine .inr (.inr (.inl ⟨i, fun c hc => ?_⟩))
        obtain ⟨p, rfl, hp⟩ := hsome hk (by simp) c hc
        exact ⟨p, rfl, corrKey_eq_id_iff.mp hp⟩
      | object q =>
        refine .inr (.inr (.inr ⟨q, fun c hc => ?_⟩))
        obtain ⟨p, rfl, hp⟩ := hsome hk (by simp) c hc
        rw [corrKey_eq_object hp]

/-- The validator accepts a sequence exactly when it accepts all its permutations, which is when the
optional clock classes are pairwise correlatable. -/
theorem accepts_order_independent (heap : ClockClassPtr → ClockClass) (graphMipVersion : ℕ)
    (msgs : List Msg) :
    (Accepts heap graphMipVersion msgs ↔
      ∀ msgs', msgs.Perm msgs' → Accepts heap graphMipVersion msgs') ∧
    (Accepts heap graphMipVersion msgs ↔
      ∀ a ∈ msgs.filterMap Msg.clockCls, ∀ b ∈ msgs.filterMap Msg.clockCls,
        Correlatable heap graphMipVersion a b) ∧
    Equivalence (Correlatable heap graphMipVersion) ∧
    (Accepts heap graphMipVersion msgs ↔
      SameClock heap graphMipVersion (msgs.filterMap Msg.clockCls)) := by
  refine ⟨⟨fun h msgs' hperm => ?_, fun h => h msgs (List.Perm.refl _)⟩, accepts_iff_correlatable,
    correlatable_equivalence, accepts_iff_correlatable.trans sameClock_iff.symm⟩
  have hmem : ∀ {c}, c ∈ msgs'.filterMap Msg.clockCls → c ∈ msgs.filterMap Msg.clockCls :=
    fun hc => (hperm.filterMap Msg.clockCls).mem_iff.mpr hc
  rw [accepts_iff_correlatable] at h ⊢
  exact fun a ha b hb => h a (hmem ha) b (hmem hb)

end Validator

end Babeltrace.ClkCorrelation
