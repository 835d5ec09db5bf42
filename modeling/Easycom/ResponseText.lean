import Mathlib.Data.List.DropRight
import Easycom.Checksum
import Easycom.Fields
import Easycom.Stream.Lines

/-!
# Easycom — ResponseText

The language `decode` reads. `ResponseText p r` says that the payload `p`
spells the response `r`, form by form; `FrameText f r` adds the checksum
layer. `decodePayload_spec` and `decodeTrimmed_spec` are the decoder's
correctness on them, and `decode_spec` that on a line: it never panics,
and it returns a response exactly on the lines that spell one.
-/

namespace Easycom

open Rust

/-! ## The forms of a response -/

/-- The first occurrence of `label` in a text has a three-byte numeral of
`v` behind it. -/
inductive LabelledText (label : List UInt8) : List UInt8 → Nat → Prop where
  | mk {pre ds post : List UInt8} {v : Nat} (hlen : ds.length = 3)
      (h : Numeral ds v)
      (hfirst : ∀ j < pre.length, ¬ label <+: (pre ++ (label ++ (ds ++ post))).drop j) :
      LabelledText label (pre ++ (label ++ (ds ++ post))) v

/-- `AZ=NNN EL=NNN`, with anything around the two labelled values. -/
structure PositionText (p : List UInt8) (az el : UInt16) : Prop where
  length : 13 ≤ p.length
  valid : Utf8.Valid p
  az : LabelledText (bytes "AZ=") p az.toNat
  el : LabelledText (bytes "EL=") p el.toNat

/-- An angle with or without `=` in front. -/
inductive AxisText : List UInt8 → Nat → Prop where
  | bare {s : List UInt8} {v : Nat} (h : AngleText s v) : AxisText s v
  | equals {s : List UInt8} {v : Nat} (h : AngleText s v) : AxisText (byte '=' :: s) v

/-- The payload `p` spells the response `r`. -/
inductive ResponseText : List UInt8 → Response → Prop where
  | error : ResponseText (bytes "?") .error
  | empty : ResponseText [] .ack
  | ack : ResponseText (bytes "+") .ack
  | position {p : List UInt8} {az el : UInt16} (h : PositionText p az el) :
      ResponseText p (.position az el)
  | azimuth {s : List UInt8} {az : UInt16} (hv : Utf8.Valid s)
      (h : AxisText s az.toNat) (hone : ∀ a e, ¬ PositionText (bytes "AZ" ++ s) a e) :
      ResponseText (bytes "AZ" ++ s) (.azimuthPosition az)
  | elevation {s : List UInt8} {el : UInt16} (hv : Utf8.Valid s)
      (h : AxisText s el.toNat) (hone : ∀ a e, ¬ PositionText (bytes "EL" ++ s) a e) :
      ResponseText (bytes "EL" ++ s) (.elevationPosition el)
  | status {st : DeviceStatus} :
      ResponseText (bytes "ST=" ++ bytes (statusToStr st)) (.status st)
  | statusRegister {s : List UInt8} {val : UInt16} (h : Numeral s val.toNat) :
      ResponseText (bytes "GS" ++ s) (.statusRegister val)
  | errorRegister {s : List UInt8} {val : UInt16} (h : Numeral s val.toNat) :
      ResponseText (bytes "GE" ++ s) (.errorRegister val)
  | configValue {s : List UInt8} {register : UInt16} {value : Int32}
      (h : RegisterText s register.toNat value.toInt) :
      ResponseText (bytes "CR" ++ s) (.configValue register value)

/-- A frame without its terminator: a payload, or a payload and its
checksum, with anything behind the two digits. -/
inductive FrameText : List UInt8 → Response → Prop where
  | plain {f : List UInt8} {r : Response} (hun : Unmarked f) (h : ResponseText f r) :
      FrameText f r
  | checked {p t : List UInt8} {h l : UInt8} {r : Response}
      (hun : Unmarked (h :: l :: t)) (hsum : hexByte h l = some (xorChecksum p))
      (hr : ResponseText p r) : FrameText (p ++ byte '*' :: h :: l :: t) r

/-! ## Labelled values -/

theorem parseLabeledValue_spec (s label : Str) (n : UInt16) :
    parseLabeledValue s label = some n ↔ LabelledText label.bytes s.bytes n.toNat := by
  rw [parseLabeledValue]
  constructor
  · intro h
    obtain ⟨idx, hidx, h⟩ := Option.bind_eq_some_iff.mp h
    obtain ⟨d, hd, hn⟩ := Option.bind_eq_some_iff.mp h
    obtain ⟨⟨rest, hrest⟩, hle, hmin⟩ := find_eq_some.mp hidx
    obtain ⟨-, -, hj, hbytes⟩ := Str.get_eq_some.mp hd
    have hj' := isCharBoundary_le hj
    simp only [Str.len] at hbytes hj'
    -- what the three bytes are, in terms of what the label left
    rw [← List.drop_drop, ← hrest, List.drop_left, Nat.add_sub_cancel_left] at hbytes
    have hlen : d.bytes.length = 3 := by
      have := congrArg List.length hrest
      simp only [List.length_append, List.length_drop] at this
      rw [hbytes, List.length_take]
      omega
    have hs : s.bytes = s.bytes.take idx ++ (label.bytes ++ (d.bytes ++ rest.drop 3)) := by
      rw [hbytes, List.take_append_drop, hrest, List.take_append_drop]
    have hpre : (s.bytes.take idx).length = idx := by
      rw [List.length_take]
      omega
    rw [hs]
    refine .mk hlen (parseU16_eq_some.mp hn) ?_
    rw [← hs, hpre]
    exact hmin
  · obtain ⟨bs, hv⟩ := s
    intro h
    generalize hk : n.toNat = k at h
    simp only at h
    cases h with
    | @mk pre ds post _ hlen h hfirst =>
        subst hk
        obtain ⟨d0, d1, d2, rfl⟩ : ∃ d0 d1 d2, ds = [d0, d1, d2] := by
          match ds, hlen with
          | [d0, d1, d2], _ => exact ⟨d0, d1, d2, rfl⟩
        have hascii := numeral_ascii h
        have hidx : Str.find ⟨_, hv⟩ label = some pre.length := by
          refine find_eq_some.mpr ⟨?_, by simp, hfirst⟩
          rw [List.drop_left]
          exact List.prefix_append _ _
        have hget : Str.get ⟨_, hv⟩ (pre.length + label.len) (pre.length + label.len + 3)
            = some ⟨[d0, d1, d2], numeral_valid h⟩ := by
          refine Str.get_eq_some.mpr ⟨by omega, ?_, ?_, ?_⟩
          · have := @isCharBoundary_at d0 (pre ++ label.bytes) ([d1, d2] ++ post)
              (hascii d0 (by simp))
            simpa [Str.len] using this
          · have := @isCharBoundary_after d2 (pre ++ (label.bytes ++ [d0, d1])) post
              (hascii d2 (by simp)) (by simpa using hv)
            simpa [Str.len, Nat.add_assoc] using this
          · simp [Str.len, ← List.drop_drop]
        rw [hidx]
        simp only [Option.bind_eq_bind, Option.bind_some]
        rw [hget]
        exact parseU16_eq_some.mpr h

/-- What stands behind a labelled value does not matter. -/
theorem LabelledText.append {label p : List UInt8} {v : Nat} (h : LabelledText label p v)
    (u : List UInt8) : LabelledText label (p ++ u) v := by
  cases h with
  | @mk pre ds post _ hlen hnum hfirst =>
      have hassoc : pre ++ (label ++ (ds ++ post)) ++ u
          = pre ++ (label ++ (ds ++ (post ++ u))) := by simp
      rw [hassoc]
      refine .mk hlen hnum fun j hj hpre => hfirst j hj ?_
      rw [← hassoc, List.drop_append_of_le_length (by simp; omega)] at hpre
      refine List.prefix_of_prefix_length_le hpre (List.prefix_append _ _) ?_
      simp only [List.length_drop, List.length_append]
      omega

theorem PositionText.append {p u : List UInt8} {az el : UInt16} (h : PositionText p az el)
    (hv : Utf8.Valid (p ++ u)) : PositionText (p ++ u) az el :=
  ⟨by have := h.length; simp only [List.length_append]; omega, hv, h.az.append u, h.el.append u⟩

theorem tryParsePosition_spec (p : List UInt8) (r : Response) :
    tryParsePosition p = some r ↔
      ∃ az el, r = .position az el ∧ PositionText p az el := by
  rw [tryParsePosition]
  constructor
  · intro h
    split at h
    · simp at h
    · dsimp only at h
      obtain ⟨s, hs, hs'⟩ := Option.bind_eq_some_iff.mp h
      obtain ⟨az, haz, haz'⟩ := Option.bind_eq_some_iff.mp hs'
      obtain ⟨el, hel, hr⟩ := Option.bind_eq_some_iff.mp haz'
      obtain rfl := fromUtf8_eq_some.mp hs
      cases hr
      exact ⟨az, el, rfl, by omega, s.valid, (parseLabeledValue_spec _ _ _).mp haz,
        (parseLabeledValue_spec _ _ _).mp hel⟩
  · rintro ⟨az, el, rfl, h⟩
    have haz := (parseLabeledValue_spec ⟨p, h.valid⟩ (lit "AZ=") az).mpr h.az
    have hel := (parseLabeledValue_spec ⟨p, h.valid⟩ (lit "EL=") el).mpr h.el
    have hlen := h.length
    rw [if_neg (by omega), fromUtf8_valid h.valid]
    simp only [Option.bind_eq_bind, Option.bind_some, haz, hel]
    rfl

/-! ## The other forms -/

theorem equals_not_head {s : List UInt8} {v : Nat} :
    ¬ AngleText (byte '=' :: s) v := by
  intro h
  have hnot : ∀ {t : List UInt8}, ¬ Numeral (byte '=' :: t) v := fun h =>
    @not_mem_numeral _ _ (byte '=') h (by decide) (by decide) (by simp)
  generalize hu : byte '=' :: s = u at h
  cases h with
  | whole h =>
      subst hu
      exact hnot h
  | @fraction ds _ h frac =>
      cases ds with
      | nil => exact h.ne_nil rfl
      | cons d ds =>
          obtain rfl := List.head_eq_of_cons_eq hu
          exact hnot h

theorem AxisText.ne_nil {s : List UInt8} {v : Nat} (h : AxisText s v) : s ≠ [] := by
  cases h with
  | bare h => exact h.ne_nil
  | equals => exact List.cons_ne_nil _ _

/-- What is left of an axis text without its `=` is an angle. -/
theorem axisText_strip (s : Str) (v : Nat) :
    AngleText ((s.stripPrefix (lit "=")).getD s).bytes v ↔ AxisText s.bytes v := by
  cases h : s.stripPrefix (lit "=") with
  | some val =>
      have hs : s.bytes = byte '=' :: val.bytes := Str.stripPrefix_eq_some.mp h
      rw [Option.getD_some, hs]
      constructor
      · exact .equals
      · intro h
        generalize hu : byte '=' :: val.bytes = u at h
        cases h with
        | bare h =>
            subst hu
            exact absurd h equals_not_head
        | equals h =>
            obtain rfl := List.tail_eq_of_cons_eq hu
            exact h
  | none =>
      have hs := Str.stripPrefix_eq_none.mp h
      rw [Option.getD_none]
      constructor
      · exact .bare
      · intro h
        generalize hu : s.bytes = u at h
        cases h with
        | bare h => exact h
        | equals h =>
            rw [hu] at hs
            exact absurd (List.prefix_append _ _) hs

/-- One axis of `tryParseSingleAxis`. -/
theorem axis_returns {s : Str} {f : UInt16 → Response} {Q : Option Response → Prop}
    (hQ : ∀ r, (∀ resp, r = some resp ↔ ∃ n, resp = f n ∧ AxisText s.bytes n.toNat) → Q r) :
    Returns (do
      let some deg ← parseFloatU16 ((s.stripPrefix (lit "=")).getD s) | return none
      return some (f deg)) Q := by
  obtain ⟨r, hr, hiff⟩ := parseFloatU16_spec ((s.stripPrefix (lit "=")).getD s)
  simp only [axisText_strip] at hiff
  rw [hr]
  cases r with
  | none => exact ⟨none, rfl, hQ none fun resp => by simp [← hiff]⟩
  | some n => exact ⟨some (f n), rfl, hQ _ fun resp => by simp [← hiff, eq_comm]⟩

theorem tryParseSingleAxis_spec (s : Str) :
    Returns (tryParseSingleAxis s.bytes) fun r => ∀ resp, r = some resp ↔
      (∃ t, s.bytes = bytes "AZ" ++ t ∧
        ∃ az, resp = .azimuthPosition az ∧ AxisText t az.toNat) ∨
      (∃ t, s.bytes = bytes "EL" ++ t ∧
        ∃ el, resp = .elevationPosition el ∧ AxisText t el.toNat) := by
  rw [tryParseSingleAxis, fromUtf8_bytes]
  refine Str.stripPrefix_returns (fun val hval => ?_) fun hAZ => ?_
  · have hne : ∀ t, bytes "AZ" ++ val.bytes ≠ bytes "EL" ++ t := by simp [bytes, byte]
    refine axis_returns fun r hr resp => ?_
    simp [hr, hval, hne]
  have hno : ∀ t, s.bytes ≠ bytes "AZ" ++ t := fun t ht => hAZ ⟨t, ht.symm⟩
  simp only [hno, false_and, exists_false, false_or]
  refine Str.stripPrefix_returns (fun val hval => ?_) fun hEL => ?_
  · refine axis_returns fun r hr resp => ?_
    simp [hr, hval]
  · have hno' : ∀ t, s.bytes ≠ bytes "EL" ++ t := fun t ht => hEL ⟨t, ht.symm⟩
    exact ⟨none, rfl, fun resp => by simp [hno']⟩

theorem statusFromStr_eq_some (s : Str) (st : DeviceStatus) :
    statusFromStr s = some st ↔ s.bytes = bytes (statusToStr st) := by
  rw [statusFromStr]
  constructor
  · intro h
    split_ifs at h <;> cases h <;> subst s <;> rfl
  · intro h
    cases st <;> simp only [statusToStr] at h <;> simp [Str.ext_iff, h, bytes, byte]

theorem tryParseStatus_spec (s : Str) (r : Response) :
    tryParseStatus s.bytes = some r ↔
      ∃ st, r = .status st ∧ s.bytes = bytes "ST=" ++ bytes (statusToStr st) := by
  simp only [tryParseStatus, fromUtf8_bytes, Option.bind_eq_bind, Option.bind_some,
    Option.bind_eq_some_iff, statusFromStr_eq_some, Option.pure_def, Option.some.injEq]
  constructor
  · rintro ⟨val, hval, st, hst, rfl⟩
    rw [Str.stripPrefix_eq_some.mp hval, hst]
    exact ⟨st, rfl, rfl⟩
  · rintro ⟨st, rfl, hs⟩
    have hv : Utf8.Valid (bytes (statusToStr st)) := by cases st <;> decide
    exact ⟨⟨_, hv⟩, Str.stripPrefix_eq_some.mpr hs, st, rfl, rfl⟩

theorem tryParseRegister_spec (s : Str) :
    Returns (tryParseRegister s.bytes) fun r => ∀ resp, r = some resp ↔
      (∃ t, s.bytes = bytes "GS" ++ t ∧
        ∃ val, resp = .statusRegister val ∧ Numeral t val.toNat) ∨
      (∃ t, s.bytes = bytes "GE" ++ t ∧
        ∃ val, resp = .errorRegister val ∧ Numeral t val.toNat) ∨
      (∃ t, s.bytes = bytes "CR" ++ t ∧
        ∃ reg val, resp = .configValue reg val ∧
          RegisterText t reg.toNat val.toInt) := by
  rw [tryParseRegister, fromUtf8_bytes]
  refine Str.stripPrefix_returns (fun val hval => ?_) fun hGS => ?_
  · have hne : ∀ t, bytes "GS" ++ val.bytes ≠ bytes "GE" ++ t := by simp [bytes, byte]
    have hne' : ∀ t, bytes "GS" ++ val.bytes ≠ bytes "CR" ++ t := by simp [bytes, byte]
    refine ⟨_, rfl, fun resp => ?_⟩
    simp [hval, hne, hne', Str.parseU16, parseU16_eq_some, and_comm, @eq_comm _ resp]
  have hno : ∀ t, s.bytes ≠ bytes "GS" ++ t := fun t ht => hGS ⟨t, ht.symm⟩
  simp only [hno, false_and, exists_false, false_or]
  refine Str.stripPrefix_returns (fun val hval => ?_) fun hGE => ?_
  · have hne : ∀ t, bytes "GE" ++ val.bytes ≠ bytes "CR" ++ t := by simp [bytes, byte]
    refine ⟨_, rfl, fun resp => ?_⟩
    simp [hval, hne, Str.parseU16, parseU16_eq_some, and_comm, @eq_comm _ resp]
  have hno' : ∀ t, s.bytes ≠ bytes "GE" ++ t := fun t ht => hGE ⟨t, ht.symm⟩
  simp only [hno', false_and, exists_false, false_or]
  refine Str.stripPrefix_returns (fun val hval => ?_) fun hCR => ?_
  · refine (parseRegisterValue_spec val).bind fun r hr => ?_
    cases r with
    | none => exact ⟨none, rfl, fun resp => by simp [hval, ← hr]⟩
    | some rv =>
        obtain ⟨reg, v⟩ := rv
        refine ⟨some (.configValue reg v), rfl, fun resp => ⟨?_, ?_⟩⟩
        · intro h
          cases h
          exact ⟨_, hval, reg, v, rfl, (hr reg v).mp rfl⟩
        · rintro ⟨t, ht, reg', v', rfl, h⟩
          obtain rfl := List.append_cancel_left (hval.symm.trans ht)
          cases (hr reg' v').mpr h
          rfl
  · have hno'' : ∀ t, s.bytes ≠ bytes "CR" ++ t := fun t ht => hCR ⟨t, ht.symm⟩
    exact ⟨none, rfl, fun resp => by simp [hno'']⟩

/-! ## The payload -/

/-- A response is spelt by the payload; there is one error. -/
def Reads (p : List UInt8) : Except ParseError Response → Prop
  | .ok resp => ResponseText p resp
  | .error e => e = .unknownCommand

/-- **Soundness**: what the cascade returns is spelt by the payload. -/
theorem decodePayload_sound (p : List UInt8) : Returns (decodePayload p) (Reads p) := by
  rw [decodePayload]
  by_cases herr : p = bytes "?"
  · subst herr
    exact ⟨_, if_pos rfl, .error⟩
  rw [if_neg herr]
  by_cases hack : p.isEmpty = true ∨ p = bytes "+"
  · refine ⟨_, if_pos hack, ?_⟩
    rcases hack with hnil | rfl
    · rw [List.isEmpty_iff.mp hnil]
      exact .empty
    · exact .ack
  rw [if_neg hack]
  by_cases hv : Utf8.Valid p
  · obtain ⟨s, rfl⟩ : ∃ s : Str, s.bytes = p := ⟨⟨p, hv⟩, rfl⟩
    cases hpos : tryParsePosition s.bytes with
    | some posResp =>
        obtain ⟨az, el, rfl, h⟩ := (tryParsePosition_spec _ _).mp hpos
        exact ⟨_, rfl, .position h⟩
    | none =>
    have hone : ∀ az el, ¬ PositionText s.bytes az el := fun az el h => by
      have := (tryParsePosition_spec s.bytes (.position az el)).mpr ⟨az, el, rfl, h⟩
      simp [hpos] at this
    refine (tryParseSingleAxis_spec s).bind fun r hr => ?_
    cases r with
    | some axisResp =>
        refine ⟨_, rfl, ?_⟩
        rcases (hr axisResp).mp rfl with ⟨t, ht, az, rfl, h⟩ | ⟨t, ht, el, rfl, h⟩
        all_goals
          rw [ht] at hv hone ⊢
          have htv := (Utf8.valid_append (by decide)).mp hv
        · exact .azimuth htv h hone
        · exact .elevation htv h hone
    | none =>
    cases hstatus : tryParseStatus s.bytes with
    | some statusResp =>
        obtain ⟨st, rfl, hs⟩ := (tryParseStatus_spec s _).mp hstatus
        rw [hs]
        exact ⟨_, rfl, .status⟩
    | none =>
    refine (tryParseRegister_spec s).bind fun r hr => ?_
    cases r with
    | none => exact ⟨_, rfl, rfl⟩
    | some regResp =>
        refine ⟨_, rfl, ?_⟩
        rcases (hr regResp).mp rfl with ⟨t, ht, val, rfl, h⟩ | ⟨t, ht, val, rfl, h⟩
          | ⟨t, ht, reg, val, rfl, h⟩ <;> rw [ht]
        · exact .statusRegister h
        · exact .errorRegister h
        · exact .configValue h
  · have hs : fromUtf8 p = none := fromUtf8_eq_none.mpr hv
    refine ⟨.error .unknownCommand, ?_, rfl⟩
    simp [tryParsePosition, tryParseSingleAxis, tryParseStatus, tryParseRegister, hs]

/-- `=` is needed for a labelled value. -/
theorem LabelledText.label_mem {label p : List UInt8} {v : Nat} {b : UInt8}
    (h : LabelledText label p v) (hb : b ∈ label) : b ∈ p := by
  cases h
  simp [hb]

theorem PositionText.equals_mem {p : List UInt8} {az el : UInt16}
    (h : PositionText p az el) : byte '=' ∈ p := h.az.label_mem (by decide)

theorem tryParsePosition_none {p : List UInt8} (h : ∀ az el, ¬ PositionText p az el) :
    tryParsePosition p = none := by
  cases hp : tryParsePosition p with
  | none => rfl
  | some r =>
      obtain ⟨az, el, -, hpos⟩ := (tryParsePosition_spec _ _).mp hp
      exact absurd hpos (h az el)

/-- A payload of two letters or more is neither `?` nor an acknowledgement. -/
theorem decodePayload_cascade {p : List UInt8} (hlen : 2 ≤ p.length)
    (hone : ∀ az el, ¬ PositionText p az el) :
    decodePayload p = (do
      if let some axisResp ← tryParseSingleAxis p then
        return .ok axisResp
      if let some statusResp := tryParseStatus p then
        return .ok statusResp
      if let some regResp ← tryParseRegister p then
        return .ok regResp
      return .error .unknownCommand) := by
  have hack : ¬ (p.isEmpty = true ∨ p = bytes "+") := by
    rintro (h | rfl)
    · simp [List.isEmpty_iff.mp h] at hlen
    · simp [bytes] at hlen
  rewrite [decodePayload, if_neg (by rintro rfl; simp [bytes] at hlen), if_neg hack,
    tryParsePosition_none hone]
  rfl

theorem decodePayload_axis {p : List UInt8} {resp : Response} (hv : Utf8.Valid p)
    (hone : ∀ az el, ¬ PositionText p az el)
    (h : (∃ t, p = bytes "AZ" ++ t ∧
        ∃ az, resp = .azimuthPosition az ∧ AxisText t az.toNat) ∨
      (∃ t, p = bytes "EL" ++ t ∧
        ∃ el, resp = .elevationPosition el ∧ AxisText t el.toNat)) :
    decodePayload p = .ok (.ok resp) := by
  have hlen : 2 ≤ p.length := by
    rcases h with ⟨t, rfl, -⟩ | ⟨t, rfl, -⟩ <;> simp [bytes]
  obtain ⟨r, hr, hiff⟩ := tryParseSingleAxis_spec ⟨p, hv⟩
  rw [decodePayload_cascade hlen hone, hr, (hiff resp).mpr h]
  rfl

theorem decodePayload_register {p : List UInt8} {resp : Response} (hv : Utf8.Valid p)
    (heq : byte '=' ∉ p)
    (h : (∃ t, p = bytes "GS" ++ t ∧
        ∃ val, resp = .statusRegister val ∧ Numeral t val.toNat) ∨
      (∃ t, p = bytes "GE" ++ t ∧
        ∃ val, resp = .errorRegister val ∧ Numeral t val.toNat) ∨
      (∃ t, p = bytes "CR" ++ t ∧
        ∃ reg val, resp = .configValue reg val ∧
          RegisterText t reg.toNat val.toInt)) :
    decodePayload p = .ok (.ok resp) := by
  have hlen : 2 ≤ p.length := by
    rcases h with ⟨t, rfl, -⟩ | ⟨t, rfl, -⟩ | ⟨t, rfl, -⟩ <;> simp [bytes]
  have haxis : ∀ t, p ≠ bytes "AZ" ++ t ∧ p ≠ bytes "EL" ++ t := by
    rcases h with ⟨t, rfl, -⟩ | ⟨t, rfl, -⟩ | ⟨t, rfl, -⟩ <;> simp [bytes, byte]
  obtain ⟨r, hr, hiff⟩ := tryParseSingleAxis_spec ⟨p, hv⟩
  have hnone : r = none := by
    cases r with
    | none => rfl
    | some a =>
        rcases (hiff a).mp rfl with ⟨t, ht, -⟩ | ⟨t, ht, -⟩
        · exact absurd ht (haxis t).1
        · exact absurd ht (haxis t).2
  have hstatus : tryParseStatus p = none := by
    cases hs : tryParseStatus p with
    | none => rfl
    | some a =>
        obtain ⟨st, -, hp⟩ := (tryParseStatus_spec ⟨p, hv⟩ a).mp hs
        exact absurd (by rw [show p = _ from hp]; simp [bytes]) heq
  obtain ⟨r', hr', hiff'⟩ := tryParseRegister_spec ⟨p, hv⟩
  rw [decodePayload_cascade hlen fun az el h => heq h.equals_mem, hr, hnone, hstatus, hr',
    (hiff' resp).mpr h]
  rfl

theorem equals_not_mem_register {s : List UInt8} {r : Nat} {v : Int}
    (h : RegisterText s r v) : byte '=' ∉ s := by
  cases h with
  | mk hr hv =>
      have h1 := @not_mem_numeral _ _ (byte '=') hr (by decide) (by decide)
      have h2 : byte '=' ∉ _ := fun hmem => by
        rcases hv.mem _ hmem with h | h | h <;> revert h <;> decide
      simp only [List.mem_append, List.mem_cons, not_or]
      exact ⟨h1, by decide, h2⟩

/-- **Every spelling of a response is decoded to it.** -/
theorem decodePayload_complete {p : List UInt8} {resp : Response}
    (h : ResponseText p resp) : decodePayload p = .ok (.ok resp) := by
  cases h with
  | error | empty | ack => decide
  | @status st => cases st <;> decide
  | position h =>
      have hlen := h.length
      have hpos := (tryParsePosition_spec p (.position _ _)).mpr ⟨_, _, rfl, h⟩
      have hack : ¬ (p.isEmpty = true ∨ p = bytes "+") := by
        rintro (h | rfl)
        · simp [List.isEmpty_iff.mp h] at hlen
        · simp [bytes] at hlen
      rw [decodePayload, if_neg (by rintro rfl; simp [bytes] at hlen), if_neg hack, hpos]
      rfl
  | azimuth hv h hone =>
      exact decodePayload_axis ((Utf8.valid_append (by decide)).mpr hv) hone
        (.inl ⟨_, rfl, _, rfl, h⟩)
  | elevation hv h hone =>
      exact decodePayload_axis ((Utf8.valid_append (by decide)).mpr hv) hone
        (.inr ⟨_, rfl, _, rfl, h⟩)
  | statusRegister h =>
      have heq := @not_mem_numeral _ _ (byte '=') h (by decide) (by decide)
      exact decodePayload_register ((Utf8.valid_append (by decide)).mpr (numeral_valid h))
        (by rw [List.mem_append, not_or]; exact ⟨by decide, heq⟩)
        (.inl ⟨_, rfl, _, rfl, h⟩)
  | errorRegister h =>
      have heq := @not_mem_numeral _ _ (byte '=') h (by decide) (by decide)
      exact decodePayload_register ((Utf8.valid_append (by decide)).mpr (numeral_valid h))
        (by rw [List.mem_append, not_or]; exact ⟨by decide, heq⟩)
        (.inr (.inl ⟨_, rfl, _, rfl, h⟩))
  | configValue h =>
      have heq := equals_not_mem_register h
      exact decodePayload_register ((Utf8.valid_append (by decide)).mpr (registerText_valid h))
        (by rw [List.mem_append, not_or]; exact ⟨by decide, heq⟩)
        (.inr (.inr ⟨_, rfl, _, _, rfl, h⟩))

/-- **The payload decoder reads its language**, and never panics. -/
theorem decodePayload_spec (p : List UInt8) :
    Returns (decodePayload p) fun r => ∀ resp, r = .ok resp ↔ ResponseText p resp := by
  obtain ⟨r, hr, hreads⟩ := decodePayload_sound p
  refine ⟨r, hr, fun resp => ?_⟩
  constructor
  · intro h
    rwa [h] at hreads
  · intro h
    rw [decodePayload_complete h] at hr
    exact (Except.ok.inj hr).symm

/-- The cascade gives up with one error only. -/
theorem decodePayload_error {p : List UInt8} {e : ParseError}
    (h : decodePayload p = .ok (.error e)) : e = .unknownCommand :=
  (decodePayload_sound p).of_eq h

theorem decodePayload_eq_ok {p : List UInt8} {resp : Response} :
    decodePayload p = .ok (.ok resp) ↔ ResponseText p resp := by
  obtain ⟨r, hr, hiff⟩ := decodePayload_spec p
  rw [hr, Except.ok.injEq, hiff]

/-- A payload that spells no response is an unknown command. -/
theorem decodePayload_unknown {p : List UInt8} (h : ∀ resp, ¬ ResponseText p resp) :
    decodePayload p = .ok (.error .unknownCommand) := by
  obtain ⟨r, hr, hiff⟩ := decodePayload_spec p
  cases r with
  | ok resp => exact absurd ((hiff resp).mp rfl) (h resp)
  | error e => rw [hr, decodePayload_error hr]

/-- A payload spells at most one response. -/
theorem ResponseText.unique {p : List UInt8} {r r' : Response} (hr : ResponseText p r)
    (hr' : ResponseText p r') : r = r' := by
  have h := (decodePayload_complete hr).symm.trans (decodePayload_complete hr')
  exact Except.ok.inj (Except.ok.inj h)

theorem ResponseText.valid {p : List UInt8} {r : Response} (h : ResponseText p r) :
    Utf8.Valid p := by
  cases h with
  | error | empty | ack => decide
  | position h => exact h.valid
  | azimuth hv | elevation hv => exact (Utf8.valid_append (by decide)).mpr hv
  | @status st => cases st <;> decide
  | statusRegister h | errorRegister h =>
      exact (Utf8.valid_append (by decide)).mpr (numeral_valid h)
  | configValue h => exact (Utf8.valid_append (by decide)).mpr (registerText_valid h)

/-- Where the text is no position, its first letters say which response it
can spell. -/
theorem ResponseText.cases_label {p : List UInt8} {r : Response} (h : ResponseText p r)
    (hno : ∀ az el, ¬ PositionText p az el) :
    (p = bytes "?" ∨ p = [] ∨ p = bytes "+") ∨
    (∃ s, p = bytes "AZ" ++ s ∧ ∃ az, r = .azimuthPosition az ∧ AxisText s az.toNat) ∨
    (∃ s, p = bytes "EL" ++ s ∧ ∃ el, r = .elevationPosition el ∧ AxisText s el.toNat) ∨
    (∃ st, p = bytes "ST=" ++ bytes (statusToStr st) ∧ r = .status st) ∨
    (∃ s, p = bytes "GS" ++ s ∧ ∃ val, r = .statusRegister val ∧ Numeral s val.toNat) ∨
    (∃ s, p = bytes "GE" ++ s ∧ ∃ val, r = .errorRegister val ∧ Numeral s val.toNat) ∨
    (∃ s, p = bytes "CR" ++ s ∧
      ∃ reg val, r = .configValue reg val ∧ RegisterText s reg.toNat val.toInt) := by
  cases h with
  | error => exact .inl (.inl rfl)
  | empty => exact .inl (.inr (.inl rfl))
  | ack => exact .inl (.inr (.inr rfl))
  | position h => exact absurd h (hno _ _)
  | azimuth hv h => exact .inr (.inl ⟨_, rfl, _, rfl, h⟩)
  | elevation hv h => exact .inr (.inr (.inl ⟨_, rfl, _, rfl, h⟩))
  | status => exact .inr (.inr (.inr (.inl ⟨_, rfl, rfl⟩)))
  | statusRegister h => exact .inr (.inr (.inr (.inr (.inl ⟨_, rfl, _, rfl, h⟩))))
  | errorRegister h => exact .inr (.inr (.inr (.inr (.inr (.inl ⟨_, rfl, _, rfl, h⟩)))))
  | configValue h => exact .inr (.inr (.inr (.inr (.inr (.inr ⟨_, rfl, _, _, rfl, h⟩)))))

/-! ## Frames and lines -/

theorem decodeTrimmed_unmarked {f : List UInt8} (h : Unmarked f) :
    decodeTrimmed f = decodePayload f := by
  rw [decodeTrimmed, splitChecksum_unmarked h]
  by_cases hempty : f.isEmpty = true
  · rw [List.isEmpty_iff.mp hempty]
    rfl
  · rw [if_neg hempty]
    rfl

/-- With a mark, the digits must spell the checksum of the payload. -/
theorem decodeTrimmed_marked {p t : List UInt8} {h l : UInt8}
    (hun : Unmarked (h :: l :: t)) :
    decodeTrimmed (p ++ byte '*' :: h :: l :: t) = (match hexByte h l with
      | none => .ok (.error .invalidUtf8)
      | some v =>
          if xorChecksum p = v then decodePayload p else .ok (.error .badChecksum)) := by
  rw [decodeTrimmed, if_neg (by simp), splitChecksum_marked hun]
  cases hexByte h l with
  | none => rfl
  | some v => by_cases hsum : xorChecksum p = v <;> simp [hsum]

theorem marked_or_unmarked (f : List UInt8) :
    Unmarked f ∨ ∃ p h l t, f = p ++ byte '*' :: h :: l :: t ∧ Unmarked (h :: l :: t) := by
  rcases rposition_windows3 f with ⟨p, h, l, t, hf, hun, -⟩ | ⟨hun, -⟩
  · exact .inr ⟨p, h, l, t, hf, hun⟩
  · exact .inl hun

theorem decodeTrimmed_spec (f : List UInt8) :
    Returns (decodeTrimmed f) fun r => ∀ resp, r = .ok resp ↔ FrameText f resp := by
  rcases marked_or_unmarked f with hun | ⟨p, h, l, t, rfl, hun⟩
  · rw [decodeTrimmed_unmarked hun]
    refine (decodePayload_spec f).mono fun r hr resp => ?_
    rw [hr]
    constructor
    · exact .plain hun
    · intro h
      cases h with
      | plain _ h => exact h
      | checked =>
          have := hun _ _ rfl
          simp at this
  · have hframe : ∀ resp, FrameText (p ++ byte '*' :: h :: l :: t) resp ↔
        hexByte h l = some (xorChecksum p) ∧ ResponseText p resp := by
      intro resp
      constructor
      · intro hf
        generalize hu : p ++ byte '*' :: h :: l :: t = u at hf
        cases hf with
        | plain hun' =>
            have := hun' _ _ hu.symm
            simp at this
        | checked hun' hsum hr =>
            obtain ⟨rfl, rfl, rfl, rfl⟩ := marked_inj hun hun' hu
            exact ⟨hsum, hr⟩
      · exact fun hf => .checked hun hf.1 hf.2
    rw [decodeTrimmed_marked hun]
    simp only [hframe]
    cases hhex : hexByte h l with
    | none => exact ⟨_, rfl, by simp⟩
    | some v =>
        by_cases hsum : xorChecksum p = v
        · simpa [hsum] using decodePayload_spec p
        · exact ⟨.error .badChecksum, if_neg hsum, by simp [Ne.symm hsum]⟩

theorem decodeTrimmed_eq_ok {f : List UInt8} {resp : Response} :
    decodeTrimmed f = .ok (.ok resp) ↔ FrameText f resp := by
  obtain ⟨r, hr, hiff⟩ := decodeTrimmed_spec f
  rw [hr, Except.ok.injEq, hiff]

theorem decodeTrimmed_error {f : List UInt8} {e : ParseError}
    (h : decodeTrimmed f = .ok (.error e)) : e ≠ .unexpectedEof := by
  rcases marked_or_unmarked f with hun | ⟨p, a, b, t, rfl, hun⟩
  · rw [decodeTrimmed_unmarked hun] at h
    rw [decodePayload_error h]
    decide
  · rw [decodeTrimmed_marked hun] at h
    cases hhex : hexByte a b with
    | none =>
        rw [hhex] at h
        cases h
        decide
    | some v =>
        rw [hhex] at h
        simp only at h
        split at h
        · rw [decodePayload_error h]
          decide
        · cases h
          decide

/-- **Only the trailing terminators are cut** before a frame is decoded. -/
theorem decode_eq {input : List UInt8} (hne : input ≠ []) :
    decode input = decodeTrimmed (input.rdropWhile isTerminator) := by
  rw [decode, if_neg (by simpa using hne)]
  cases hpos : rposition (fun b => !isTerminator b) input with
  | none =>
      have hall := rposition_eq_none.mp hpos
      have hnil : input.rdropWhile isTerminator = [] :=
        List.rdropWhile_eq_nil_iff.mpr fun b hb => by simpa using hall b hb
      rw [hnil]
      rfl
  | some i =>
      obtain ⟨l, x, r, rfl, rfl, hx, hr⟩ := rposition_eq_some.mp hpos
      have hcut : (l ++ x :: r).rdropWhile isTerminator = l ++ [x] := by
        have hx' : isTerminator x = false := by simpa using hx
        clear hpos hne hx
        induction r using List.reverseRecOn with
        | nil => exact List.rdropWhile_concat_neg _ _ _ (by simp [hx'])
        | append_singleton r y ih =>
            rw [← List.cons_append, ← List.append_assoc,
              List.rdropWhile_concat_pos _ _ _ (by simpa using hr y (by simp))]
            exact ih fun z hz => hr z (by simp [hz])
      have hslice : sliceToIncl (l ++ x :: r) l.length = .ok (l ++ [x]) := by
        rw [sliceToIncl, sliceTo_ok (by simp)]
        simp [List.take_append]
      rw [hcut]
      simp only [hslice, ok_bind]

theorem rdropWhile_line {l : List UInt8} (hl : Stream.Open isTerminator l) :
    l.rdropWhile isTerminator = l := by
  rw [List.rdropWhile_eq_self_iff]
  intro hne
  simp [hl _ (List.getLast_mem hne)]

/-- The terminator of a frame is not looked at. -/
theorem decode_concat {f : List UInt8} {t : UInt8} (ht : isTerminator t = true) :
    decode (f ++ [t]) = decodeTrimmed (f.rdropWhile isTerminator) := by
  rw [decode_eq (by simp), List.rdropWhile_concat_pos _ _ _ ht]

theorem decode_line {l : List UInt8} {t : UInt8} (hl : Stream.Open isTerminator l)
    (ht : isTerminator t = true) : decode (l ++ [t]) = decodeTrimmed l := by
  rw [decode_concat ht, rdropWhile_line hl]

/-- Terminators inside a frame are not trimmed. -/
theorem decode_closed {f : List UInt8} {b t : UInt8} (hb : isTerminator b = false)
    (ht : isTerminator t = true) : decode (f ++ [b] ++ [t]) = decodeTrimmed (f ++ [b]) := by
  rw [decode_concat ht, List.rdropWhile_concat_neg _ _ _ (by simp [hb])]

/-- **The response decoder**, on any bytes: no panic, and a response
exactly where the bytes before the trailing terminators spell it. -/
theorem decode_spec (input : List UInt8) :
    Returns (decode input) fun r => ∀ resp, r = .ok resp ↔
      input ≠ [] ∧ FrameText (input.rdropWhile isTerminator) resp := by
  by_cases hne : input = []
  · subst hne
    exact ⟨.error .unexpectedEof, rfl, by simp⟩
  · rw [decode_eq hne]
    simpa [hne] using decodeTrimmed_spec _

end Easycom
