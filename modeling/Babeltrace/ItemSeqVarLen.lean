import Babeltrace.CtfserRoundTrip
import Babeltrace.ItemSeqResume
import Babeltrace.Leb128

/-!
# Variable-length integers

The loop of `_handleCommonVarLenIntFieldState()` accepts the LEB128 encodings of at most nine bytes
and those of ten bytes of which the last one only has the most significant bit of a 64-bit integer.
-/
namespace Babeltrace.ItemSeq
open Bitfield Ctfser Leb128 Program UnitBits

/-! ## One byte -/

/-- The bytes are the next ones of the content of the packet. -/
structure AtHead (bytes : List UInt8) (d : Dec) (enc : List UInt8) : Prop where
  content : d.headOffsetInCurPkt + 8 * enc.length ≤ d.expectedContentLen
  data : enc <+: bytes.drop ((d.curPktOffsetInItemSeq + d.headOffsetInCurPkt) / 8)

/-- `k` groups of value `x` are read. -/
structure Reading (bytes : List UInt8) (k x : ℕ) (d : Dec) : Prop where
  fits : d.Fits bytes True
  aligned : d.headOffsetInCurPkt % 8 = 0
  len : d.curVarLenIntLen = 7 * k
  val : d.curVarLenIntVal = x
  lt : x < 2 ^ (7 * k)

def Accepted (isSigned : Bool) (count x : ℕ) : Prop :=
  count < 10 ∨ count = 10 ∧ if isSigned then x / 2 ^ 63 = 0 ∨ x / 2 ^ 63 = 127 else x / 2 ^ 63 = 1

/-- What the loop returns for `count` groups of value `x` -/
def varLenResult (isSigned : Bool) (count x : ℕ) : ℤ × ℕ :=
  (varLenIntVal isSigned (min 64 (7 * count)) (x % 2 ^ 64), min 64 (7 * count))

section
variable {m : Medium} {bytes enc : List UInt8} {d : Dec} {isSigned : Bool} {k x n : ℕ} {b : UInt8}

theorem Reading.drop_eq (h : Reading bytes k x d) (havail : Avail bytes d 8) :
    bytes.drop ((d.curPktOffsetInItemSeq + d.headOffsetInCurPkt) / 8) =
      pktMem bytes d (d.headOffsetInCurPkt / 8) ::
        bytes.drop ((d.curPktOffsetInItemSeq + (d.headOffsetInCurPkt + 8)) / 8) := by
  have hpkt := h.fits.pktOffset_mod
  have halign := h.aligned
  have hdata := havail.data
  have hlt : (d.curPktOffsetInItemSeq + d.headOffsetInCurPkt) / 8 < bytes.length := by omega
  have hindex : d.curPktOffsetInItemSeq / 8 + d.headOffsetInCurPkt / 8 =
      (d.curPktOffsetInItemSeq + d.headOffsetInCurPkt) / 8 := by omega
  have hnext : (d.curPktOffsetInItemSeq + (d.headOffsetInCurPkt + 8)) / 8 =
      (d.curPktOffsetInItemSeq + d.headOffsetInCurPkt) / 8 + 1 := by omega
  rw [pktMem, memOf, hindex, hnext, List.getD_eq_getElem _ _ hlt]
  exact List.drop_eq_getElem_cons hlt

theorem Reading.next (h : Reading bytes k x d) (hk : k ≤ 8) {d' : Dec} {group : ℕ}
    (hfits : d'.Fits bytes True) (hhead : d'.headOffsetInCurPkt = d.headOffsetInCurPkt + 8)
    (hlen : d'.curVarLenIntLen = min 64 (7 * (k + 1)))
    (hval : d'.curVarLenIntVal = (x + 2 ^ (7 * k) * (group % 128)) % 2 ^ 64) :
    Reading bytes (k + 1) (x + 2 ^ (7 * k) * (group % 128)) d' := by
  have hlt : x + 2 ^ (7 * k) * (group % 128) < 2 ^ (7 * (k + 1)) := by
    have hx := h.lt
    have hgroup : 2 ^ (7 * k) * (group % 128) ≤ 2 ^ (7 * k) * 127 := Nat.mul_le_mul_left _ (by omega)
    rw [two_pow_groups_succ]
    omega
  have hle : 2 ^ (7 * (k + 1)) ≤ 2 ^ 63 := Nat.pow_le_pow_right (by decide) (by omega)
  have halign := h.aligned
  exact ⟨hfits, by omega, by omega, by rw [hval, Nat.mod_eq_of_lt (by omega)], hlt⟩

theorem or_group (hx : x < 2 ^ (7 * k)) (hk : k ≤ 9) (group : ℕ) :
    x ||| (group <<< (7 * k) % 2 ^ 64) = (x + 2 ^ (7 * k) * group) % 2 ^ 64 := by
  have hsplit : 2 ^ 64 = 2 ^ (7 * k) * 2 ^ (64 - 7 * k) := by
    rw [← Nat.pow_add]
    congr 1
    omega
  rw [Nat.shiftLeft_eq, Nat.mul_comm group, hsplit, Nat.mul_mod_mul_left, Nat.or_comm,
    ← Nat.two_pow_add_eq_or_of_lt hx, Nat.mod_mul, Nat.add_mul_mod_self_left,
    Nat.mod_eq_of_lt hx, Nat.add_mul_div_left _ _ (Nat.two_pow_pos _), Nat.div_eq_of_lt hx,
    Nat.zero_add, Nat.add_comm]

def TenthRejected (isSigned : Bool) (byte : ℕ) : Prop :=
  128 ≤ byte ∨ (isSigned ∧ ¬ (byte % 128 = 0 ∨ byte % 128 = 0x7f)) ∨ (!isSigned ∧ byte % 128 ≠ 1)

def Dec.withGroup (d : Dec) (k byte : ℕ) : Dec := { d with
  headOffsetInCurPkt := d.headOffsetInCurPkt + 8
  curVarLenIntVal := (d.curVarLenIntVal + 2 ^ (7 * k) * (byte % 128)) % 2 ^ 64
  curVarLenIntLen := min 64 (7 * (k + 1)) }

theorem appendVarLenIntByte_error (hlen : d.curVarLenIntLen = 7 * k) {byte : ℕ}
    (hrej : k = 9 ∧ TenthRejected isSigned byte) :
    ∃ e d', appendVarLenIntByte isSigned byte d = .error e d' := by
  simp only [appendVarLenIntByte, get_bind_apply, hlen]
  rw [if_pos ⟨by omega, hrej.2⟩]
  exact ⟨_, _, rfl⟩

theorem appendVarLenIntByte_ok (hlen : d.curVarLenIntLen = 7 * k) (hlt : d.curVarLenIntVal < 2 ^ (7 * k))
    (hk : k ≤ 9) {byte : ℕ} (hrej : ¬ (k = 9 ∧ TenthRejected isSigned byte)) :
    appendVarLenIntByte isSigned byte d = .ok () (d.withGroup k byte) := by
  have hnew : (if 63 < 7 * k + 7 then 64 else 7 * k + 7) = min 64 (7 * (k + 1)) := by
    split <;> omega
  simp only [appendVarLenIntByte, get_bind_apply, hlen]
  rw [if_neg fun hnot => hrej ⟨by omega, hnot.2⟩, hnew, Dec.withGroup, ← or_group hlt hk, ← hlen]
  rfl

theorem varLenLoop_succ (hm : m.Over bytes) (hready : m.Ready) (h : Reading bytes k x d) (hk : k ≤ 9)
    (havail : Avail bytes d 8) (hb : b = pktMem bytes d (d.headOffsetInCurPkt / 8)) :
    (k = 9 ∧ TenthRejected isSigned b.toNat ∧ ∃ e d', varLenLoop m isSigned (n + 1) d = .error e d') ∨
      ¬ (k = 9 ∧ TenthRejected isSigned b.toNat) ∧ ∃ d', d'.Fits bytes True ∧ SamePkt d d' ∧
        d'.headOffsetInCurPkt = d.headOffsetInCurPkt + 8 ∧
        d'.curVarLenIntLen = min 64 (7 * (k + 1)) ∧
        d'.curVarLenIntVal = (x + 2 ^ (7 * k) * (b.toNat % 128)) % 2 ^ 64 ∧
        varLenLoop m isSigned (n + 1) d =
          if b.toNat < 128 then
            .ok (varLenResult isSigned (k + 1) (x + 2 ^ (7 * k) * (b.toNat % 128)))
              { d' with curVarLenIntVal := 0, curVarLenIntLen := 0 }
          else varLenLoop m isSigned n d' := by
  obtain ⟨d₁, hreq, hfits, hhas, hrequests⟩ :=
    requireContentData_eq hm hready h.fits (by decide) havail
  have hhead : d₁.headOffsetInCurPkt = d.headOffsetInCurPkt := by rw [hrequests]
  have hlen : d₁.curVarLenIntLen = 7 * k := by rw [hrequests]; exact h.len
  have hval : d₁.curVarLenIntVal = x := by rw [hrequests]; exact h.val
  have hspace := hhas.1
  obtain ⟨data, hdata, hbytes⟩ := @readBuf_eq bytes d₁ hfits 1 (by decide) (by omega)
  have hbyte : data.headD 0 = b := by
    have hzero := hbytes 0 (by decide)
    rw [@pktMem_congr bytes d d₁ (by rw [hrequests]), hhead, Nat.add_zero, ← hb] at hzero
    rw [← hzero]
    cases data <;> rfl
  simp only [varLenLoop, bind_apply, hreq, hdata, hbyte]
  by_cases hrej : k = 9 ∧ TenthRejected isSigned b.toNat
  · obtain ⟨e, d', happend⟩ := appendVarLenIntByte_error hlen hrej
    exact .inl ⟨hrej.1, hrej.2, e, d', by rw [happend]⟩
  · have happend := appendVarLenIntByte_ok hlen (by rw [hval]; exact h.lt) hk hrej
    have hconsume := hfits.consume hhas.1 hhas.2
    refine .inr ⟨hrej, d₁.withGroup k b.toNat, ⟨hconsume.1, hconsume.2, hconsume.3, hconsume.4,
      hconsume.5, hconsume.6, hconsume.7⟩, ⟨?_, ?_⟩, ?_, rfl, ?_, ?_⟩
    · change d₁.curPktOffsetInItemSeq = _
      rw [hrequests]
    · change d₁.expectedContentLen = _
      rw [hrequests]
    · rw [← hhead]
      rfl
    · rw [← hval]
      rfl
    · rw [happend, ← hval]
      dsimp only
      split <;> rfl

theorem avail_of_varLenLoop (hm : m.Over bytes) (h : d.Fits bytes True) {r : ℤ × ℕ} {d' : Dec}
    (hok : varLenLoop m isSigned (n + 1) d = .ok r d') : Avail bytes d 8 := by
  simp only [varLenLoop, bind_apply] at hok
  cases hreq : requireContentData m 8 d with
  | error e d₁ =>
    rw [hreq] at hok
    cases hok
  | ok _ d₁ =>
    obtain ⟨hfits, hspace, hcontent⟩ := (requireContentData_fits hm (by decide)).ok h hreq
    have hrequests := (requireContentData_requests m 8).ok hreq
    have hle := hfits.buf_le
    have hcontent := hcontent trivial
    rw [hrequests] at hcontent hspace hle
    exact ⟨hcontent, by simp only at hspace hle; omega⟩

theorem AtHead.avail (h : Reading bytes k x d) (henc : AtHead bytes d (b :: enc)) :
    Avail bytes d 8 := by
  have hpkt := h.fits.pktOffset_mod
  have halign := h.aligned
  have hcontent := henc.content
  have hdata := henc.data.length_le
  rw [List.length_cons] at hcontent hdata
  rw [List.length_drop] at hdata
  exact ⟨by omega, by omega⟩

theorem atHead_cons (h : Reading bytes k x d) (havail : Avail bytes d 8) {d' : Dec} {b' : UInt8}
    (hb : b = pktMem bytes d (d.headOffsetInCurPkt / 8)) (hsame : SamePkt d d')
    (hhead : d'.headOffsetInCurPkt = d.headOffsetInCurPkt + 8) :
    AtHead bytes d (b' :: enc) ↔ b' = b ∧ AtHead bytes d' enc := by
  have hlen : (b' :: enc).length = enc.length + 1 := rfl
  constructor
  · rintro ⟨hcontent, hdata⟩
    rw [h.drop_eq havail, ← hb] at hdata
    obtain ⟨rfl, hdata⟩ := List.cons_prefix_cons.mp hdata
    exact ⟨rfl, by rw [hhead, hsame.contentLen]; omega, by rwa [hsame.pktOffset, hhead]⟩
  · rintro ⟨rfl, hcontent, hdata⟩
    rw [hhead, hsame.contentLen] at hcontent
    rw [hsame.pktOffset, hhead] at hdata
    refine ⟨by omega, ?_⟩
    rw [h.drop_eq havail, ← hb]
    exact List.cons_prefix_cons.mpr ⟨rfl, hdata⟩

structure Encoded (bytes : List UInt8) (isSigned : Bool) (k x : ℕ) (d : Dec) (enc : List UInt8) :
    Prop where
  atHead : AtHead bytes d enc
  isEncoding : IsEncoding enc
  accepted : Accepted isSigned (k + enc.length) (x + 2 ^ (7 * k) * groupsVal enc)

theorem Encoded.exists_cons (h : Reading bytes k x d) (henc : Encoded bytes isSigned k x d enc)
    (hb : b = pktMem bytes d (d.headOffsetInCurPkt / 8)) :
    Avail bytes d 8 ∧ ∃ tail, enc = b :: tail := by
  obtain ⟨hhead, hencoding, -⟩ := henc
  cases enc with
  | nil => exact hencoding.elim
  | cons b' tail =>
    have havail := hhead.avail h
    have hdata := hhead.data
    rw [h.drop_eq havail, ← hb] at hdata
    exact ⟨havail, tail, by rw [(List.cons_prefix_cons.mp hdata).1]⟩

theorem encoded_singleton (h : Reading bytes k x d) (havail : Avail bytes d 8)
    (hb : b = pktMem bytes d (d.headOffsetInCurPkt / 8)) (hlast : b.toNat < 128) (hk : k ≤ 9) :
    Encoded bytes isSigned k x d [b] ↔ ¬ (k = 9 ∧ TenthRejected isSigned b.toNat) := by
  have hlt := h.lt
  have hdata : AtHead bytes d [b] :=
    ⟨havail.content, by rw [h.drop_eq havail, ← hb]; exact ⟨_, rfl⟩⟩
  have hgroup : groupsVal [b] = b.toNat := by
    simp only [groupsVal]
    omega
  have haccepted : Accepted isSigned (k + 1) (x + 2 ^ (7 * k) * b.toNat) ↔
      ¬ (k = 9 ∧ TenthRejected isSigned b.toNat) := by
    unfold Accepted TenthRejected
    obtain hk | rfl := Nat.lt_or_eq_of_le hk
    · exact ⟨fun _ hnot => by omega, fun _ => .inl (by omega)⟩
    · cases isSigned <;> simp <;> omega
  rw [← haccepted]
  exact ⟨fun h => hgroup ▸ h.accepted, fun h => ⟨hdata, (isEncoding_cons_of_lt hlast).mpr rfl,
    hgroup.symm ▸ h⟩⟩

theorem groups_cons (k x : ℕ) (b : UInt8) (enc : List UInt8) :
    x + 2 ^ (7 * k) * groupsVal (b :: enc) =
      x + 2 ^ (7 * k) * (b.toNat % 128) + 2 ^ (7 * (k + 1)) * groupsVal enc := by
  rw [groupsVal, two_pow_groups_succ]
  ring

theorem encoded_cons (h : Reading bytes k x d) (havail : Avail bytes d 8) {d' : Dec}
    (hb : b = pktMem bytes d (d.headOffsetInCurPkt / 8)) (hmore : 128 ≤ b.toNat)
    (hsame : SamePkt d d') (hhead : d'.headOffsetInCurPkt = d.headOffsetInCurPkt + 8) :
    Encoded bytes isSigned k x d (b :: enc) ↔
      Encoded bytes isSigned (k + 1) (x + 2 ^ (7 * k) * (b.toNat % 128)) d' enc := by
  have hcount : k + (b :: enc).length = k + 1 + enc.length := by
    rw [List.length_cons]
    omega
  constructor
  · rintro ⟨hat, hencoding, haccepted⟩
    exact ⟨((atHead_cons h havail hb hsame hhead).mp hat).2, (isEncoding_cons_of_le hmore).mp hencoding,
      by rwa [hcount, groups_cons] at haccepted⟩
  · rintro ⟨hat, hencoding, haccepted⟩
    exact ⟨(atHead_cons h havail hb hsame hhead).mpr ⟨rfl, hat⟩,
      (isEncoding_cons_of_le hmore).mpr hencoding, by rwa [hcount, groups_cons]⟩

def Returns (bytes : List UInt8) (isSigned : Bool) (k x : ℕ) (d : Dec) (r : ℤ × ℕ) (pos : ℕ) : Prop :=
  ∃ enc, Encoded bytes isSigned k x d enc ∧
    r = varLenResult isSigned (k + enc.length) (x + 2 ^ (7 * k) * groupsVal enc) ∧
    pos = d.headOffsetInCurPkt + 8 * enc.length

variable {r : ℤ × ℕ} {pos : ℕ}

theorem returns_last (h : Reading bytes k x d) (hk : k ≤ 9) (havail : Avail bytes d 8)
    (hb : b = pktMem bytes d (d.headOffsetInCurPkt / 8)) (hlast : b.toNat < 128) :
    Returns bytes isSigned k x d r pos ↔ ¬ (k = 9 ∧ TenthRejected isSigned b.toNat) ∧
      r = varLenResult isSigned (k + 1) (x + 2 ^ (7 * k) * (b.toNat % 128)) ∧
      pos = d.headOffsetInCurPkt + 8 := by
  rw [← encoded_singleton h havail hb hlast hk]
  refine ⟨fun ⟨enc, henc, hr, hpos⟩ => ?_, fun ⟨henc, hr, hpos⟩ => ⟨[b], henc, hr, hpos⟩⟩
  obtain ⟨-, tail, rfl⟩ := henc.exists_cons h hb
  obtain rfl := (isEncoding_cons_of_lt hlast).mp henc.isEncoding
  exact ⟨henc, hr, hpos⟩

theorem returns_more (h : Reading bytes k x d) (havail : Avail bytes d 8) {d' : Dec}
    (hb : b = pktMem bytes d (d.headOffsetInCurPkt / 8)) (hmore : 128 ≤ b.toNat)
    (hsame : SamePkt d d') (hhead : d'.headOffsetInCurPkt = d.headOffsetInCurPkt + 8) :
    Returns bytes isSigned k x d r pos ↔
      Returns bytes isSigned (k + 1) (x + 2 ^ (7 * k) * (b.toNat % 128)) d' r pos := by
  have hcount (tail : List UInt8) : k + (b :: tail).length = k + 1 + tail.length := by
    rw [List.length_cons]
    omega
  have hpos (tail : List UInt8) : d.headOffsetInCurPkt + 8 * (b :: tail).length =
      d'.headOffsetInCurPkt + 8 * tail.length := by
    rw [List.length_cons]
    omega
  constructor
  · rintro ⟨enc, henc, hr, rfl⟩
    obtain ⟨-, tail, rfl⟩ := henc.exists_cons h hb
    rw [hcount, groups_cons] at hr
    exact ⟨tail, (encoded_cons h havail hb hmore hsame hhead).mp henc, hr, hpos tail⟩
  · rintro ⟨tail, henc, hr, rfl⟩
    rw [← groups_cons, ← hcount] at hr
    exact ⟨b :: tail, (encoded_cons h havail hb hmore hsame hhead).mpr henc, hr, (hpos tail).symm⟩

theorem varLenLoop_iff (hm : m.Over bytes) (hready : m.Ready) (h : Reading bytes k x d)
    (hn : n + k = 10) :
    (∃ d', varLenLoop m isSigned n d = .ok r d' ∧ d'.headOffsetInCurPkt = pos) ↔
      Returns bytes isSigned k x d r pos := by
  induction n generalizing k x d with
  | zero =>
    refine ⟨fun ⟨_, hok, _⟩ => (nomatch hok), fun ⟨enc, henc, _⟩ => ?_⟩
    obtain ⟨-, tail, rfl⟩ := henc.exists_cons h rfl
    have haccepted := henc.accepted
    unfold Accepted at haccepted
    rw [List.length_cons] at haccepted
    omega
  | succ n ih =>
    have hk : k ≤ 9 := by omega
    by_cases havail : Avail bytes d 8
    swap
    · exact ⟨fun ⟨_, hok, _⟩ => absurd (avail_of_varLenLoop hm h.fits hok) havail,
        fun ⟨_, henc, _⟩ => absurd (henc.exists_cons h rfl).1 havail⟩
    obtain ⟨b, hb⟩ : ∃ b, b = pktMem bytes d (d.headOffsetInCurPkt / 8) := ⟨_, rfl⟩
    have hstep := @varLenLoop_succ m bytes d isSigned k x n b hm hready h hk havail hb
    obtain ⟨h9, hrej, e, d', herr⟩ | ⟨hrej, d', hfits, hsame, hhead, hlen, hval, hloop⟩ := hstep
    · rw [herr]
      refine ⟨fun ⟨_, hok, _⟩ => (nomatch hok), fun hreturns => ?_⟩
      by_cases hlast : b.toNat < 128
      · exact absurd ⟨h9, hrej⟩ ((returns_last h hk havail hb hlast).mp hreturns).1
      · -- The tenth byte isn't the last one: there are more than ten.
        obtain ⟨enc, henc, -⟩ := hreturns
        obtain ⟨-, tail, rfl⟩ := henc.exists_cons h hb
        have hencoding := (isEncoding_cons_of_le (by omega)).mp henc.isEncoding
        have haccepted := henc.accepted
        unfold Accepted at haccepted
        cases tail with
        | nil => exact hencoding.elim
        | cons b' tail =>
          rw [List.length_cons, List.length_cons] at haccepted
          omega
    · rw [hloop]
      by_cases hlast : b.toNat < 128
      · rw [if_pos hlast, returns_last h hk havail hb hlast]
        constructor
        · rintro ⟨d'', hok, hpos⟩
          cases hok
          exact ⟨hrej, rfl, hpos.symm.trans hhead⟩
        · rintro ⟨-, rfl, rfl⟩
          exact ⟨_, rfl, hhead⟩
      · have hmore : 128 ≤ b.toNat := by omega
        have hk8 : k ≤ 8 := by
          by_contra h9
          exact hrej ⟨by omega, .inl hmore⟩
        rw [if_neg hlast, returns_more h havail hb hmore hsame hhead]
        exact ih (h.next hk8 hfits hhead hlen hval) (by omega)

/-! ## Integers of 64 bits -/

theorem decode_short (hpos : 0 < enc.length) (h10 : enc.length < 10) :
    varLenIntVal isSigned (7 * enc.length) (groupsVal enc) = decode isSigned enc ∧
      Representable isSigned 64 (decode isSigned enc) := by
  have hlt := groupsVal_lt enc
  have hle : 2 ^ (7 * enc.length) ≤ 2 ^ 63 := Nat.pow_le_pow_right (by decide) (by omega)
  have hpow : 2 ^ (7 * enc.length) = 2 * 2 ^ (7 * enc.length - 1) := by
    rw [← Nat.pow_succ']
    congr 1
    omega
  have hcast : (2 : ℤ) ^ (7 * enc.length) = ((2 ^ (7 * enc.length) : ℕ) : ℤ) := by push_cast; rfl
  have h64 : 7 * enc.length ≠ 64 := by omega
  unfold varLenIntVal decode Representable
  cases isSigned with
  | false =>
    simp only [Bool.false_eq_true, false_and, if_false, true_and]
    omega
  | true =>
    simp only [true_and, if_true, h64, if_false, Nat.mod_eq_of_lt hlt, toSigned_of_lt (Nat.pos_of_ne_zero
      (by omega : 7 * enc.length ≠ 0)) hlt, hcast]
    generalize 2 ^ (7 * enc.length) = p at *
    generalize 2 ^ (7 * enc.length - 1) = q at *
    constructor
    · split <;> split <;> omega
    · split <;> omega

theorem decode_ten (h10 : enc.length = 10) (h : Accepted isSigned 10 (groupsVal enc)) :
    varLenIntVal isSigned 64 (groupsVal enc % 2 ^ 64) = decode isSigned enc ∧
      Representable isSigned 64 (decode isSigned enc) := by
  have hlt := groupsVal_lt enc
  have hmod : groupsVal enc % 2 ^ 64 < 2 ^ 64 := Nat.mod_lt _ (by decide)
  unfold Accepted at h
  unfold varLenIntVal decode Representable
  rw [h10] at hlt ⊢
  cases isSigned with
  | false =>
    simp only [Bool.false_eq_true, false_and, if_false] at h ⊢
    omega
  | true =>
    simp only [true_and, if_true, toSigned_of_lt (by decide : 0 < 64) hmod] at h ⊢
    constructor
    · split <;> split <;> omega
    · split <;> omega

theorem decode_of_accepted (henc : IsEncoding enc)
    (h : Accepted isSigned enc.length (groupsVal enc)) :
    varLenResult isSigned enc.length (groupsVal enc) =
      (decode isSigned enc, if enc.length = 10 then 64 else 7 * enc.length) ∧
    Representable isSigned 64 (decode isSigned enc) := by
  have hpos : 0 < enc.length :=
    List.length_pos_of_ne_nil fun hnil => by rw [hnil] at henc; exact henc
  unfold varLenResult
  by_cases h10 : enc.length = 10
  · rw [h10] at h
    obtain ⟨hval, hfits⟩ := decode_ten h10 h
    rw [h10, if_pos rfl, ← hval]
    exact ⟨rfl, hval ▸ hfits⟩
  · have hlt : enc.length < 10 := h.elim id fun hten => absurd hten.1 h10
    obtain ⟨hval, hfits⟩ := @decode_short enc isSigned hpos hlt
    have hmin : min 64 (7 * enc.length) = 7 * enc.length := by omega
    have hle : 2 ^ (7 * enc.length) ≤ 2 ^ 64 := Nat.pow_le_pow_right (by decide) (by omega)
    rw [hmin, if_neg h10, Nat.mod_eq_of_lt ((groupsVal_lt enc).trans_le hle), hval]
    exact ⟨rfl, hfits⟩

theorem accepted_of_representable (henc : IsEncoding enc)
    (hv : Representable isSigned 64 (decode isSigned enc))
    (h : enc.length ≤ 9 ∨ enc.length = 10 ∧ IsMinimal isSigned enc) :
    Accepted isSigned enc.length (groupsVal enc) := by
  obtain h9 | ⟨h10, hmin⟩ := h
  · exact .inl (by omega)
  · refine .inr ⟨h10, ?_⟩
    have hlt := groupsVal_lt enc
    unfold decode Representable at hv
    rw [h10] at hlt hv
    cases isSigned with
    | false =>
      have hlast := hmin.last_ne_zero henc (by omega)
      rw [h10] at hlast
      simp only [Bool.false_eq_true, false_and, if_false] at hv ⊢
      omega
    | true =>
      simp only [true_and, if_true] at hv ⊢
      split at hv <;> omega

theorem returns_iff :
    Returns bytes isSigned 0 0 d r pos ↔ ∃ enc, AtHead bytes d enc ∧ IsEncoding enc ∧
      Accepted isSigned enc.length (groupsVal enc) ∧
      r = (decode isSigned enc, if enc.length = 10 then 64 else 7 * enc.length) ∧
      pos = d.headOffsetInCurPkt + 8 * enc.length := by
  have hgroups (enc : List UInt8) : 0 + 2 ^ (7 * 0) * groupsVal enc = groupsVal enc := by omega
  constructor
  · rintro ⟨enc, ⟨hhead, henc, haccepted⟩, hr, hpos⟩
    rw [hgroups, Nat.zero_add] at haccepted hr
    exact ⟨enc, hhead, henc, haccepted, hr.trans (decode_of_accepted henc haccepted).1, hpos⟩
  · rintro ⟨enc, hhead, henc, haccepted, hr, hpos⟩
    refine ⟨enc, ⟨hhead, henc, ?_⟩, ?_, hpos⟩
    · rwa [hgroups, Nat.zero_add]
    · rw [hgroups, Nat.zero_add, hr, (decode_of_accepted henc haccepted).1]

def ResumesTo (base m : Medium) (isSigned : Bool) (d : Dec) (r : ℤ × ℕ) (pos : ℕ) : Prop :=
  ∃ d', (varLenLoop m isSigned (varLenFuel d) d = .ok r d' ∨
      ∃ d₁, varLenLoop m isSigned (varLenFuel d) d = .error .tryAgain d₁ ∧
        varLenLoop base isSigned (varLenFuel d₁) d₁ = .ok r d') ∧
    d'.headOffsetInCurPkt = pos

theorem resumesTo_iff {base : Medium} (hbase : base.Over bytes) (hready : base.Ready)
    (hm : base.Interrupts m) (h : Reading bytes 0 0 d) :
    ResumesTo base m isSigned d r pos ↔ Returns bytes isSigned 0 0 d r pos := by
  have hfuel : varLenFuel d = 10 := by rw [varLenFuel, h.len]
  rw [← varLenLoop_iff hbase hready h rfl, ResumesTo, hfuel]
  refine exists_congr fun d' => and_congr_left fun _ => ?_
  obtain hl | ⟨d₁, hl, hb, -⟩ := varLenLoop_resume hm isSigned 10 d hfuel
  · rw [hl]
    exact ⟨fun hok => hok.elim id fun ⟨_, herr, _⟩ => absurd herr (varLenLoop_never hready _ _ _ _),
      .inl⟩
  · rw [hl, ← hb]
    constructor
    · rintro (hok | ⟨d₁, herr, hok⟩)
      · cases hok
      · cases herr
        exact hok
    · exact fun hok => .inr ⟨d₁, rfl, hok⟩

/-- The integers which the loop reads are those of the LEB128 encodings at the head which have 64
bits and of which a tenth byte, if any, is needed. -/
theorem varLenLoop_leb128 {base : Medium} (hbase : base.Over bytes) (hready : base.Ready)
    (hm : base.Interrupts m) (h : Reading bytes 0 0 d) :
    (∀ v enc, Representable isSigned 64 v → IsEncoding enc → decode isSigned enc = v →
      (enc.length ≤ 9 ∨ enc.length = 10 ∧ IsMinimal isSigned enc) → AtHead bytes d enc →
      ResumesTo base m isSigned d (v, if enc.length = 10 then 64 else 7 * enc.length)
        (d.headOffsetInCurPkt + 8 * enc.length)) ∧
    (∀ r pos, ResumesTo base m isSigned d r pos → ∃ enc, IsEncoding enc ∧ AtHead bytes d enc ∧
      r.1 = decode isSigned enc ∧ pos = d.headOffsetInCurPkt + 8 * enc.length) ∧
    ∀ enc, IsEncoding enc → AtHead bytes d enc → ¬ Representable isSigned 64 (decode isSigned enc) →
      ∀ r pos, ¬ ResumesTo base m isSigned d r pos := by
  simp only [resumesTo_iff hbase hready hm h, returns_iff]
  refine ⟨?_, ?_, ?_⟩
  · rintro v enc hv henc rfl hlen hhead
    exact ⟨enc, hhead, henc, accepted_of_representable henc hv hlen, rfl, rfl⟩
  · rintro r pos ⟨enc, hhead, henc, -, rfl, hpos⟩
    exact ⟨enc, henc, hhead, rfl, hpos⟩
  · rintro enc henc hhead hv r pos ⟨enc', hhead', henc', haccepted, -⟩
    rw [henc.unique henc' hhead.data hhead'.data] at hv
    exact hv (decode_of_accepted henc' haccepted).2

end

def threeBytes : List UInt8 := [0xe5, 0x8e, 0x26]

def threeBytesDec : Dec := { expectedTotalLen := 24, expectedContentLen := 24 }

theorem varLenLoop_leb128_threeBytes :
    ResumesTo (.ofBytes threeBytes 4) (.ofBytes threeBytes 4) false threeBytesDec (624485, 21) 24 := by
  have hfits : threeBytesDec.Fits threeBytes True := by constructor <;> decide
  exact (varLenLoop_leb128 (Medium.ofBytes_over _ _) (Medium.ofBytes_ready _ _) (fun _ _ => .inl rfl)
    ⟨hfits, by decide, by decide, by decide, by decide⟩).1 624485 threeBytes (by decide) (by decide)
    (by decide) (.inl (by decide)) ⟨by decide, by decide⟩

end Babeltrace.ItemSeq
