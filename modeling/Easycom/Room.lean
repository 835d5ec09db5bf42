import Easycom.Rust.Writer
import Easycom.Wire

/-!
# Easycom — Room

The encoders in a buffer of any size. Firmware hands them a fixed buffer,
and what they return does not tell that it is too small: they panic. They
do so exactly when the frame does not fit, so that the length of the frame
is all the room they need, no byte behind it is touched, and no part of a
frame is ever returned (`encoders_room`). In a buffer with room for the
longest frame an accepted command, and every response, is written over its
front (`encodeInto_accepted`, `encodeWithChecksum_accepted`,
`encodeResponseInto_eq`).
-/

namespace Easycom

open Rust

variable {buf w : List UInt8} {pos : Nat}

/-! ## Number writers -/

theorem addU8_digit {d : UInt8} {n : Nat} (h : d.toNat = n % 10) :
    addU8 (byte '0') d = .ok (digit n) := by
  have h0 : (byte '0').toNat = 48 := by decide
  rw [addU8, if_pos (by omega)]
  congr 1
  apply UInt8.toNat_inj.mp
  rw [digit_toNat, UInt8.toNat_add, h0, h]
  omega

theorem adds_write3digits (n : UInt16) (hpos : pos = w.length) :
    Adds buf w (digits3 n.toNat) (fun b => (b, pos + 3)) (write3digits (filled buf w) pos n) := by
  have hd : ∀ m : UInt16, addU8 (byte '0') (m % 10).toUInt8 = .ok (digit m.toNat) := by
    intro m
    apply addU8_digit
    rw [UInt16.toNat_toUInt8, UInt16.toNat_mod, show (10 : UInt16).toNat = 10 from rfl]
    omega
  simp only [write3digits, hd, ok_bind, UInt16.toNat_div]
  exact adds_cons hpos (adds_cons (by simp [hpos]) (adds_cons (by simp [hpos]) adds_pure))

theorem adds_writeSigned3digits (n : Int16) (hpos : pos = w.length) :
    Adds buf w (signed3 n.toInt) (fun b => (b, pos + 4))
      (writeSigned3digits (filled buf w) pos n) := by
  have habs : (unsignedAbsI16 n).toNat = n.toInt.natAbs := by
    have := n.le_toInt
    have := n.toInt_lt
    rw [unsignedAbsI16, UInt16.toNat_ofNat_of_lt' (show n.toInt.natAbs < 2 ^ 16 by omega)]
  have hsign : (0 ≤ n) = (0 ≤ n.toInt) := by simp [Int16.le_iff_toInt_le]
  simp only [writeSigned3digits, signed3, hsign]
  have hdigits := @adds_write3digits buf
    (w ++ [if 0 ≤ n.toInt then byte '+' else byte '-']) (pos + 1) (unsignedAbsI16 n)
    (by simp [hpos])
  rw [habs] at hdigits
  exact adds_cons hpos hdigits

/-- The digit loop leaves the digits of `n`, least significant first,
behind those already written. The scratch array has room for them as long
as `n < 10 ^ room`. -/
theorem digitLoop_filled (base : List UInt8) (room : Nat) (n : UInt32)
    (ds : List UInt8) (hlen : base.length = ds.length + room)
    (hn : n.toNat < 10 ^ room) :
    digitLoop room n (filled base ds) ds.length
      = .ok (filled base (ds ++ (Nat.digits 10 n.toNat).map digit),
        (ds ++ (Nat.digits 10 n.toNat).map digit).length) := by
  induction room generalizing n ds with
  | zero =>
      have h0 : n.toNat = 0 := by omega
      have hn0 : n = 0 := UInt32.toNat_inj.mp h0
      subst hn0
      simp [digitLoop]
  | succ room ih =>
      by_cases h0 : n = 0
      · subst h0
        simp [digitLoop]
      · have hpos : 0 < n.toNat :=
          Nat.pos_of_ne_zero fun h => h0 (UInt32.toNat_inj.mp h)
        have hd : addU8 (byte '0') (n % 10).toUInt8 = .ok (digit n.toNat) := by
          apply addU8_digit
          rw [UInt32.toNat_toUInt8, UInt32.toNat_mod, show (10 : UInt32).toNat = 10 from rfl]
          omega
        have hdiv : (n / 10).toNat = n.toNat / 10 := UInt32.toNat_div n 10
        have hdig : digit (n.toNat % 10) = digit n.toNat := by simp [digit]
        rw [digitLoop, if_pos (by rwa [UInt32.lt_iff_toNat_lt]), hd, ok_bind,
          store_filled _ rfl (by omega), ok_bind]
        have hstep := ih (n / 10) (ds ++ [digit n.toNat])
          (by simp only [List.length_append, List.length_singleton]; omega)
          (by rw [hdiv]; rw [Nat.pow_succ] at hn; omega)
        rw [List.length_append, List.length_singleton] at hstep
        rw [hstep, hdiv, Nat.digits_def' (by decide) hpos]
        simp [hdig]

/-- The copy loop adds the digits back to front. -/
theorem adds_copyLoop (base ds : List UInt8) (hpos : pos = w.length) (k : Nat)
    (hk : k ≤ ds.length) :
    Adds buf w (ds.reverse.take k) (fun b => b)
      ((List.range k).foldlM (fun buf i => do
        let d ← index (filled base ds) (ds.length - 1 - i)
        store buf (pos + i) d) (filled buf w)) := by
  induction k with
  | zero => exact adds_pure
  | succ k ih =>
      have hlt : k < ds.reverse.length := by
        rw [List.length_reverse]
        omega
      have hget : index (filled base ds) (ds.length - 1 - k) = .ok ds.reverse[k] := by
        rw [index_ok (by simp [filled]; omega)]
        simp only [filled]
        rw [List.getElem_append_left (by omega), List.getElem_reverse]
      rw [List.range_succ, List.foldlM_append, ← List.take_concat_get' _ _ hlt]
      refine adds_bind (ih (by omega)) ?_
      rw [List.foldlM_cons, hget, ok_bind]
      exact adds_cons (by simp [hpos]; omega) adds_pure

theorem adds_writeU32 (n : UInt32) (hpos : pos = w.length) :
    Adds buf w (decimal n.toNat) (fun b => (b, pos + (decimal n.toNat).length))
      (writeU32 (filled buf w) pos n) := by
  have hlt := n.toNat_lt
  rw [writeU32]
  by_cases h0 : n = 0
  · subst h0
    exact adds_cons hpos adds_pure
  · have hn : n.toNat ≠ 0 := fun h => h0 (UInt32.toNat_inj.mp h)
    have hloop := digitLoop_filled (List.replicate 10 0) 10 n [] (by simp) (by omega)
    simp only [filled_nil, List.length_nil, List.nil_append] at hloop
    have hcopy := @adds_copyLoop buf w pos (List.replicate 10 0)
      ((Nat.digits 10 n.toNat).map digit) hpos _ (Nat.le_refl _)
    rw [← List.length_reverse, List.take_length, List.length_reverse] at hcopy
    rw [if_neg h0, hloop, ok_bind]
    simp only [decimal, if_neg hn, List.length_reverse]
    exact hcopy.map

theorem adds_writeI32 (n : Int32) (hpos : pos = w.length) :
    Adds buf w (decimalInt n.toInt) (fun b => (b, pos + (decimalInt n.toInt).length))
      (writeI32 (filled buf w) pos n) := by
  have hlo := n.le_toInt
  have hhi := n.toInt_lt
  have hsign : n < 0 ↔ n.toInt < 0 := by simp [Int32.lt_iff_toInt_lt]
  rw [writeI32, decimalInt]
  by_cases hneg : n < 0
  · have habs : (unsignedAbsI32 n).toNat = n.toInt.natAbs := by
      rw [unsignedAbsI32, UInt32.toNat_ofNat_of_lt' (show n.toInt.natAbs < 2 ^ 32 by omega)]
    have hdigits := @adds_writeU32 buf (w ++ [byte '-']) (pos + 1) (unsignedAbsI32 n)
      (by simp [hpos])
    rw [habs] at hdigits
    rw [if_pos hneg, if_pos (hsign.mp hneg), List.length_cons, Nat.add_comm _ 1, ← Nat.add_assoc]
    exact adds_cons hpos hdigits
  · have hval : n.toUInt32.toNat = n.toInt.natAbs := by
      have h0 : 0 ≤ n := by
        rw [Int32.le_iff_toInt_le]
        simpa using mt hsign.mpr hneg
      have hcast := Int32.cast_toNatClampNeg n h0
      rw [Int32.toNat_toUInt32_of_le h0]
      omega
    have hdigits := @adds_writeU32 buf w pos n.toUInt32 hpos
    rw [hval] at hdigits
    rwa [if_neg hneg, if_neg (mt hsign.mpr hneg)]

/-! ## The encoders -/

theorem adds_formatCmd3digit (letter : UInt8) (value : UInt16) :
    Adds buf [] (letter :: (digits3 value.toNat ++ [byte '\r'])) (fun b => (b, 5))
      (formatCmd3digit letter value buf) :=
  adds_cons rfl (adds_bind (adds_write3digits value rfl) (adds_cons rfl adds_pure))

theorem adds_writeVelocityCmd (p0 p1 : UInt8) (speed : UInt32) :
    Adds buf [] (p0 :: p1 :: (decimal speed.toNat ++ [byte '\r']))
      (fun b => (.ok (2 + (decimal speed.toNat).length + 1), b))
      (writeVelocityCmd buf p0 p1 speed) := by
  refine adds_cons rfl (adds_cons rfl (adds_bind (adds_writeU32 speed rfl) ?_))
  exact adds_cons (by simp; omega) adds_pure

/-- **An accepted command needs room for its frame**, and no more. -/
theorem adds_encodeInto {c : Command} (hc : c.Accepted) (buf : List UInt8) :
    Adds buf [] (c.payload ++ [byte '\r']) (fun b => (.ok (c.payload.length + 1), b))
      (encodeInto c buf) := by
  cases c with
  | queryPosition | stop | keepAlive => exact adds_cons rfl (adds_cons rfl adds_pure)
  | queryAzimuth | queryElevation | queryStatus =>
      exact adds_cons rfl (adds_cons rfl (adds_cons rfl adds_pure))
  | getStatusRegister | getErrorRegister | reset | park =>
      exact adds_bind (adds_copyFromSlice rfl rfl) (adds_cons rfl adds_pure)
  | azimuth az | elevation az =>
      simp only [Command.Accepted, ← UInt16.not_lt] at hc
      rw [encodeInto, if_neg hc]
      exact (adds_formatCmd3digit _ az).map
  | azimuthElevation az el =>
      simp only [Command.Accepted, ← UInt16.not_lt] at hc
      show Adds buf [] (byte 'W' :: (digits3 az.toNat ++
        (byte ' ' :: (digits3 el.toNat ++ [byte '\r'])))) _ _
      rw [encodeInto, if_neg hc.1, if_neg hc.2]
      exact adds_cons rfl (adds_bind (adds_write3digits az rfl)
        (adds_cons rfl (adds_bind (adds_write3digits el rfl) (adds_cons rfl adds_pure))))
  | offset az el =>
      show Adds buf [] (byte 'O' :: (signed3 az.toInt ++ (signed3 el.toInt ++ [byte '\r']))) _ _
      exact adds_cons rfl (adds_bind (adds_writeSigned3digits az rfl)
        (adds_bind (adds_writeSigned3digits el rfl) (adds_cons rfl adds_pure)))
  | velocityLeft speed | velocityRight speed | velocityUp speed | velocityDown speed =>
      have h := fun l => @adds_writeVelocityCmd buf (byte 'V') l speed
      simp only [Nat.add_comm 2] at h
      exact h _
  | readConfig reg =>
      have hreg := @adds_writeU32 buf (bytes "CR") 2 reg.toUInt32 rfl
      rw [UInt16.toNat_toUInt32, Nat.add_comm 2] at hreg
      show Adds buf [] (bytes "CR" ++ (decimal reg.toNat ++ [byte '\r'])) _ _
      exact adds_bind (adds_copyFromSlice rfl rfl) (adds_bind hreg (adds_cons rfl adds_pure))
  | writeConfig register value =>
      have hreg := @adds_writeU32 buf (bytes "CW") 2 register.toUInt32 rfl
      rw [UInt16.toNat_toUInt32] at hreg
      have hvalue := @adds_writeI32 buf (bytes "CW" ++ decimal register.toNat ++ [byte ','])
        (2 + (decimal register.toNat).length + 1) value (by simp [bytes]; omega)
      have hlen : (Command.writeConfig register value).payload.length
          = 2 + (decimal register.toNat).length + 1 + (decimalInt value.toInt).length := by
        simp [Command.payload, bytes]
        omega
      rw [hlen]
      have htext : (Command.writeConfig register value).payload ++ [byte '\r']
          = bytes "CW" ++ (decimal register.toNat ++
            (byte ',' :: (decimalInt value.toInt ++ [byte '\r']))) := by
        simp [Command.payload, bytes]
      rw [htext]
      refine adds_bind (adds_copyFromSlice rfl rfl) (adds_bind hreg (adds_cons ?_
        (adds_bind hvalue (adds_cons ?_ adds_pure))))
      · simp [bytes]
        omega
      · simp [bytes]
        omega

theorem adds_writeAxisPosition (l0 l1 : UInt8) (value : UInt16) :
    Adds buf [] (l0 :: l1 :: (digits3 value.toNat ++ bytes ".0\n")) (fun b => (b, 8))
      (writeAxisPosition l0 l1 value buf) :=
  adds_cons rfl (adds_cons rfl (adds_bind (adds_write3digits value rfl)
    (adds_cons rfl (adds_cons rfl (adds_cons rfl adds_pure)))))

theorem adds_writeRegister (l0 l1 : UInt8) (val : UInt16) :
    Adds buf [] (l0 :: l1 :: (decimal val.toNat ++ [byte '\n']))
      (fun b => (b, 2 + (decimal val.toNat).length + 1)) (writeRegister l0 l1 val buf) := by
  have hval := @adds_writeU32 buf [l0, l1] 2 val.toUInt32 rfl
  rw [UInt16.toNat_toUInt32] at hval
  refine adds_cons rfl (adds_cons rfl (adds_bind hval (adds_cons ?_ adds_pure)))
  simp
  omega

/-- **A response needs room for its frame**, and no more. -/
theorem adds_encodeResponseInto (r : Response) (buf : List UInt8) :
    Adds buf [] r.frame (fun b => (b, r.frame.length)) (encodeResponseInto r buf) := by
  cases r with
  | ack | error => exact adds_cons rfl (adds_cons rfl adds_pure)
  | position az el =>
      show Adds buf [] (byte 'A' :: byte 'Z' :: byte '=' :: (digits3 az.toNat ++
        (byte ' ' :: byte 'E' :: byte 'L' :: byte '=' :: (digits3 el.toNat ++ [byte '\r'])))) _ _
      exact adds_cons rfl (adds_cons rfl (adds_cons rfl (adds_bind (adds_write3digits az rfl)
        (adds_cons rfl (adds_cons rfl (adds_cons rfl (adds_cons rfl
          (adds_bind (adds_write3digits el rfl) (adds_cons rfl adds_pure)))))))))
  | azimuthPosition v | elevationPosition v => exact adds_writeAxisPosition _ _ v
  | status st =>
      have hpre : (bytes "ST=").length = 3 := by decide
      have hlen : (Response.status st).frame.length = 4 + (bytes (statusToStr st)).length := by
        simp [Response.frame, Response.payload, hpre]
        omega
      rw [hlen]
      show Adds buf [] (bytes "ST=" ++ bytes (statusToStr st) ++ [byte '\r']) _ _
      rw [List.append_assoc]
      refine adds_bind (adds_copyFromSlice rfl rfl) (adds_bind (adds_copyFromSlice rfl ?_)
        (adds_cons ?_ adds_pure))
      · simp [hpre]
      · simp [hpre]
  | statusRegister val | errorRegister val =>
      have h : ∀ l : UInt8, Adds buf [] (byte 'G' :: l :: (decimal val.toNat ++ [byte '\n']))
          (fun b => (b, (byte 'G' :: l :: (decimal val.toNat ++ [byte '\n'])).length))
          (writeRegister (byte 'G') l val buf) := by
        intro l
        have hlen : (byte 'G' :: l :: (decimal val.toNat ++ [byte '\n'])).length
            = 2 + (decimal val.toNat).length + 1 := by
          simp
          omega
        rw [hlen]
        exact adds_writeRegister _ _ val
      exact h _
  | configValue register value =>
      have hreg := @adds_writeU32 buf (bytes "CR") 2 register.toUInt32 rfl
      rw [UInt16.toNat_toUInt32] at hreg
      have hvalue := @adds_writeI32 buf (bytes "CR" ++ decimal register.toNat ++ [byte ','])
        (2 + (decimal register.toNat).length + 1) value (by simp [bytes]; omega)
      have htext : (Response.configValue register value).frame
          = byte 'C' :: byte 'R' :: (decimal register.toNat ++
            (byte ',' :: (decimalInt value.toInt ++ [byte '\n']))) := by
        simp [Response.frame, Response.payload, Response.terminator, bytes]
      have hlen : (Response.configValue register value).frame.length
          = 2 + (decimal register.toNat).length + 1 + (decimalInt value.toInt).length + 1 := by
        simp [htext]
        omega
      rw [hlen, htext]
      refine adds_cons rfl (adds_cons rfl (adds_bind hreg (adds_cons ?_
        (adds_bind hvalue (adds_cons ?_ adds_pure)))))
      · simp
        omega
      · simp
        omega

/-! ## With a checksum -/

theorem adds_writeChecksum (checksum : UInt8) (hpos : pos = w.length) :
    Adds buf w (checksumSuffix checksum) (fun b => (b, pos + 3))
      (writeChecksum (filled buf w) pos checksum) := by
  have hlen : hexDigits.length = 16 := by decide
  have hlt := checksum.toNat_lt
  have hhi : index hexDigits (checksum >>> 4).toNat
      = .ok (hexDigits.getD (checksum >>> 4).toNat 0) := by
    have hbound : (checksum >>> 4).toNat < hexDigits.length := by
      rw [toNat_shiftRight_four]
      omega
    rw [index_ok hbound, List.getD_eq_getElem?_getD, List.getElem?_eq_getElem hbound]
    rfl
  have hlo : index hexDigits (checksum &&& 0x0F).toNat
      = .ok (hexDigits.getD (checksum &&& 0x0F).toNat 0) := by
    have hbound : (checksum &&& 0x0F).toNat < hexDigits.length := by
      rw [toNat_and_fifteen]
      omega
    rw [index_ok hbound, List.getD_eq_getElem?_getD, List.getElem?_eq_getElem hbound]
    rfl
  simp only [writeChecksum, hhi, hlo, ok_bind]
  exact adds_cons hpos (adds_cons (by simp [hpos]) (adds_cons (by simp [hpos]) adds_pure))

/-- **The checksum needs three bytes more.** -/
theorem adds_encodeWithChecksum {c : Command} (hc : c.Accepted) (buf : List UInt8) :
    Adds buf [] (c.checkedPayload ++ [byte '\r'])
      (fun b => (.ok (c.checkedPayload.length + 1), b)) (encodeWithChecksum c buf) := by
  have hplain := adds_encodeInto hc buf (Nat.zero_le _)
  have hchecked : c.payload ++ checksumSuffix (xorChecksum c.payload) = c.checkedPayload := rfl
  have hlong := c.checkedPayload_length
  rw [List.nil_append] at hplain
  intro _
  rw [List.nil_append]
  by_cases hroom : (c.payload ++ [byte '\r']).length ≤ buf.length
  · rw [if_pos hroom] at hplain
    have hpayload : filled (filled buf (c.payload ++ [byte '\r'])) c.payload
        = filled buf (c.payload ++ [byte '\r']) := filled_of_take (take_filled_append _ _ _)
    have hlen : (filled buf (c.payload ++ [byte '\r'])).length = buf.length := filled_length hroom
    have hslice := sliceTo_filled_append hroom
    have hframe : filled (filled buf (c.payload ++ [byte '\r'])) (c.checkedPayload ++ [byte '\r'])
        = filled buf (c.checkedPayload ++ [byte '\r']) :=
      filled_filled (by simp [hlong])
    rw [encodeWithChecksum, hplain, ok_bind]
    simp only [Nat.add_sub_cancel, hslice, ok_bind]
    generalize filled buf (c.payload ++ [byte '\r']) = out at hpayload hlen hframe
    -- the checksum is written over the CR, behind the payload
    have hsum : Adds out c.payload (checksumSuffix (xorChecksum c.payload) ++ [byte '\r'])
        (fun b => ((.ok (c.payload.length + 3 + 1), b) : Encoded)) (do
          let r ← writeChecksum (filled out c.payload) c.payload.length (xorChecksum c.payload)
          let buf ← store r.1 r.2 (byte '\r')
          return (.ok (r.2 + 1), buf)) :=
      adds_bind (adds_writeChecksum _ rfl) (adds_cons (by simp [checksumSuffix]) adds_pure)
    have hsum := hsum (by rw [hlen]; simp at hroom; omega)
    rwa [← List.append_assoc, hchecked, hlen, hpayload, hframe, ← hlong] at hsum
  · rw [if_neg hroom] at hplain
    obtain ⟨p, hp⟩ := hplain
    simp only [List.length_append, List.length_singleton] at hroom
    rw [if_neg (by simp only [List.length_append, List.length_singleton]; omega),
      encodeWithChecksum, hp]
    exact ⟨p, rfl⟩

/-! ## Buffers with room -/

/-- **An accepted command is written as its payload and CR** over the front
of any buffer of at least 20 bytes. -/
theorem encodeInto_accepted {c : Command} (hc : c.Accepted)
    (h : 20 ≤ buf.length) :
    encodeInto c buf
      = .ok (.ok (c.payload.length + 1), filled buf (c.payload ++ [byte '\r'])) := by
  have hlen := c.payload_length_le
  apply (adds_encodeInto hc buf).returns
  rw [List.length_append, List.length_singleton]
  omega

/-- **A rejected command leaves the buffer as it was**, whatever its size. -/
theorem encodeInto_rejected {c : Command} (hc : ¬ c.Accepted)
    (buf : List UInt8) : ∃ msg, encodeInto c buf = .ok (.error msg, buf) := by
  cases c with
  | azimuth az | elevation az =>
      simp only [Command.Accepted, UInt16.not_le] at hc
      exact ⟨_, by rw [encodeInto, if_pos hc]; rfl⟩
  | azimuthElevation az el =>
      simp only [Command.Accepted] at hc
      by_cases haz : 360 < az
      · exact ⟨_, by rw [encodeInto, if_pos haz]; rfl⟩
      · have hel : 180 < el :=
          UInt16.not_le.mp fun hel => hc ⟨UInt16.not_lt.mp haz, hel⟩
        exact ⟨_, by rw [encodeInto, if_neg haz, if_pos hel]; rfl⟩
  | _ => exact absurd trivial hc

/-- What an encoder that accepts a command wrote. -/
theorem encodeInto_ok {c : Command} {n : Nat} {out : List UInt8} (hroom : 20 ≤ buf.length)
    (h : encodeInto c buf = .ok (.ok n, out)) :
    c.Accepted ∧ n = c.payload.length + 1 ∧ out.take n = c.payload ++ [byte '\r'] := by
  by_cases hc : c.Accepted
  · rw [encodeInto_accepted hc hroom] at h
    cases h
    exact ⟨hc, rfl, take_filled_concat _ _ _⟩
  · obtain ⟨msg, hmsg⟩ := encodeInto_rejected hc buf
    rw [hmsg] at h
    cases h

/-- **With a checksum, `*XX` stands before the CR**: the XOR is that of the
payload, and the CR the plain encoder wrote is overwritten. -/
theorem encodeWithChecksum_accepted {c : Command} (hc : c.Accepted)
    (h : 23 ≤ buf.length) :
    encodeWithChecksum c buf
      = .ok (.ok (c.checkedPayload.length + 1),
        filled buf (c.checkedPayload ++ [byte '\r'])) := by
  have hlen := c.payload_length_le
  apply (adds_encodeWithChecksum hc buf).returns
  rw [List.length_append, List.length_singleton, c.checkedPayload_length]
  omega

theorem encodeWithChecksum_rejected {c : Command} (hc : ¬ c.Accepted)
    (buf : List UInt8) :
    ∃ msg, encodeWithChecksum c buf = .ok (.error msg, buf) := by
  obtain ⟨msg, hmsg⟩ := encodeInto_rejected hc buf
  exact ⟨msg, by rw [encodeWithChecksum, hmsg]; rfl⟩

/-- **A response is written as its frame** over the front of any buffer of
at least 20 bytes; there is no rejected response. -/
theorem encodeResponseInto_eq (r : Response) (h : 20 ≤ buf.length) :
    encodeResponseInto r buf = .ok (filled buf r.frame, r.frame.length) := by
  have hlen := r.payload_length_le
  apply (adds_encodeResponseInto r buf).returns
  rw [r.frame_length]
  omega

/-- **`encode` returns the frame alone**, -/
theorem encode_accepted {c : Command} (hc : c.Accepted) :
    encode c = .ok (.ok (c.payload ++ [byte '\r'])) := by
  have hlen := c.payload_length_le
  rw [encode, encodeInto_accepted hc (by simp), ok_bind]
  simp only
  rw [sliceTo_filled_concat (by rw [List.length_replicate]; omega)]
  rfl

/-- or the message of the parameter that is out of range. -/
theorem encode_rejected {c : Command} (hc : ¬ c.Accepted) :
    ∃ msg, encode c = .ok (.error (.invalidParam msg)) := by
  obtain ⟨msg, hmsg⟩ := encodeInto_rejected hc (List.replicate 32 0)
  exact ⟨msg, by rw [encode, hmsg]; rfl⟩

/-! ## Buffers of any size -/

/-- **What the encoders return in a buffer of any size.** With room for
the frame, its length, and the buffer with the frame over its front; with
less, nothing. A rejected command is reported in any buffer, and leaves it
as it was. -/
theorem encoders_room (buf : List UInt8) :
    (∀ c : Command, c.Accepted →
      (∀ out, encodeInto c buf = .ok out ↔ c.payload.length + 1 ≤ buf.length ∧
        out = (.ok (c.payload.length + 1), filled buf (c.payload ++ [byte '\r']))) ∧
      (∀ out, encodeWithChecksum c buf = .ok out ↔ c.payload.length + 4 ≤ buf.length ∧
        out = (.ok (c.payload.length + 4), filled buf (c.checkedPayload ++ [byte '\r'])))) ∧
    (∀ c : Command, ¬ c.Accepted → ∃ msg, encodeInto c buf = .ok (.error msg, buf) ∧
      encodeWithChecksum c buf = .ok (.error msg, buf)) ∧
    ∀ (r : Response) out, encodeResponseInto r buf = .ok out ↔
      r.payload.length + 1 ≤ buf.length ∧ out = (filled buf r.frame, r.payload.length + 1) := by
  refine ⟨fun c hc => ⟨fun out => ?_, fun out => ?_⟩, fun c hc => ?_, fun r out => ?_⟩
  · rw [(adds_encodeInto hc buf).returns_iff, List.length_append, List.length_singleton]
  · rw [(adds_encodeWithChecksum hc buf).returns_iff, List.length_append, List.length_singleton,
      c.checkedPayload_length]
  · obtain ⟨msg, hmsg⟩ := encodeInto_rejected hc buf
    exact ⟨msg, hmsg, by rw [encodeWithChecksum, hmsg]; rfl⟩
  · rw [(adds_encodeResponseInto r buf).returns_iff, r.frame_length]

/-- A stop fits into two bytes, and panics in one. -/
theorem encoders_room_stop :
    encodeInto .stop [0, 0] = .ok (.ok 2, bytes "S\r") ∧ ∀ out, encodeInto .stop [0] ≠ .ok out := by
  constructor
  · exact (((encoders_room [0, 0]).1 .stop trivial).1 _).mpr ⟨by decide, rfl⟩
  · intro out h
    have hlen := ((((encoders_room [0]).1 .stop trivial).1 out).mp h).1
    exact absurd hlen (by decide)

end Easycom
