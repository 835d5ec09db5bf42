import Easycom.Fields

/-!
# Easycom — CommandText

The language `decode_command` reads. `CommandText p c` says that the text
`p` spells the command `c`; it lists the forms one by one, without the
order in which the decoder tries them. The one place where the order
matters is a frame of both axes: the single-axis form asks that no
combined set in range is spelt.

`decodeStripped_spec` is the decoder's correctness on a stripped frame,
`decodeCommand_spec` on a raw one: it never panics, and it returns exactly
the command spelt by what the checksum stripper keeps (`Kept`).
-/

namespace Easycom

open Rust

/-! ## The forms of a command -/

/-- The commands that are one fixed word. -/
def keywords : List (String × Command) :=
  [("C", .queryPosition), ("S", .stop), ("?", .keepAlive),
    ("GS", .getStatusRegister), ("GE", .getErrorRegister),
    ("AZ", .queryAzimuth), ("EL", .queryElevation), ("RESET", .reset),
    ("PARK", .park), ("SA SE", .stop), ("SA", .stop), ("SE", .stop)]

/-- `AZ<angle> EL<angle>`, cut at the first space, both axes in range. -/
inductive CombinedText : List UInt8 → UInt16 → UInt16 → Prop where
  | mk {s t : List UInt8} {az el : UInt16} (hs : AngleText s az.toNat)
      (hspace : byte ' ' ∉ s) (ht : AngleText t el.toNat) (haz : az ≤ 360)
      (hel : el ≤ 180) :
      CombinedText (bytes "AZ" ++ s ++ byte ' ' :: (bytes "EL" ++ t)) az el

/-- The text `p` spells the command `c`. -/
inductive CommandText : List UInt8 → Command → Prop where
  | keyword {k : String} {c : Command} (h : (k, c) ∈ keywords) :
      CommandText (bytes k) c
  | azimuth3 {ds : List UInt8} {az : UInt16} (h : Field3 ds az.toNat)
      (hle : az ≤ 360) : CommandText (bytes "A" ++ ds) (.azimuth az)
  | elevation3 {ds : List UInt8} {el : UInt16} (h : Field3 ds el.toNat)
      (hle : el ≤ 180) : CommandText (bytes "E" ++ ds) (.elevation el)
  | both3 {ds es : List UInt8} {az el : UInt16} (haz : Field3 ds az.toNat)
      (hel : Field3 es el.toNat) (hazle : az ≤ 360) (helle : el ≤ 180) :
      CommandText (bytes "W" ++ ds ++ byte ' ' :: es) (.azimuthElevation az el)
  | offset {ds es : List UInt8} {az el : Int16} (haz : SignedField3 ds az.toInt)
      (hel : SignedField3 es el.toInt) :
      CommandText (bytes "O" ++ ds ++ es) (.offset az el)
  | velocityLeft {s : List UInt8} {speed : UInt32} (h : Numeral s speed.toNat) :
      CommandText (bytes "VL" ++ s) (.velocityLeft speed)
  | velocityRight {s : List UInt8} {speed : UInt32} (h : Numeral s speed.toNat) :
      CommandText (bytes "VR" ++ s) (.velocityRight speed)
  | velocityUp {s : List UInt8} {speed : UInt32} (h : Numeral s speed.toNat) :
      CommandText (bytes "VU" ++ s) (.velocityUp speed)
  | velocityDown {s : List UInt8} {speed : UInt32} (h : Numeral s speed.toNat) :
      CommandText (bytes "VD" ++ s) (.velocityDown speed)
  | writeConfig {s : List UInt8} {reg : UInt16} {val : Int32}
      (h : RegisterText s reg.toNat val.toInt) :
      CommandText (bytes "CW" ++ s) (.writeConfig reg val)
  | readConfig {s : List UInt8} {reg : UInt16} (h : Numeral s reg.toNat) :
      CommandText (bytes "CR" ++ s) (.readConfig reg)
  | statusRegister {s : List UInt8} (hv : Utf8.Valid s) (hne : s ≠ []) :
      CommandText (bytes "GS" ++ s) .getStatusRegister
  | both {s : List UInt8} {az el : UInt16} (hv : Utf8.Valid s)
      (h : CombinedText s az el) : CommandText s (.azimuthElevation az el)
  | azimuth {s : List UInt8} {az : UInt16} (hv : Utf8.Valid s)
      (h : AngleText s az.toNat) (hle : az ≤ 360)
      (hone : ∀ a e, ¬ CombinedText (bytes "AZ" ++ s) a e) :
      CommandText (bytes "AZ" ++ s) (.azimuth az)
  | elevation {s : List UInt8} {el : UInt16} (hv : Utf8.Valid s)
      (h : AngleText s el.toNat) (hle : el ≤ 180) :
      CommandText (bytes "EL" ++ s) (.elevation el)

theorem combinedText_split {s t : List UInt8} {az el : UInt16}
    (hs : byte ' ' ∉ s) :
    CombinedText (s ++ byte ' ' :: t) az el ↔
      (∃ a, s = bytes "AZ" ++ a ∧ AngleText a az.toNat) ∧
      (∃ e, t = bytes "EL" ++ e ∧ AngleText e el.toNat) ∧
      az ≤ 360 ∧ el ≤ 180 := by
  constructor
  · intro h
    generalize hu : s ++ byte ' ' :: t = u at h
    cases h with
    | @mk a e _ _ ha hspace he haz hel =>
        have hnot : byte ' ' ∉ bytes "AZ" ++ a := by
          rw [List.mem_append, not_or]
          exact ⟨by decide, hspace⟩
        obtain ⟨rfl, rfl⟩ := (append_cons_inj hs hnot).mp hu
        exact ⟨⟨a, rfl, ha⟩, ⟨e, rfl, he⟩, haz, hel⟩
  · rintro ⟨⟨a, rfl, ha⟩, ⟨e, rfl, he⟩, haz, hel⟩
    exact .mk ha (fun h => hs (by simp [h])) he haz hel

theorem CombinedText.space_mem {s : List UInt8} {az el : UInt16}
    (h : CombinedText s az el) : byte ' ' ∈ s := by
  cases h
  simp

theorem CombinedText.prefix_AZ {s : List UInt8} {az el : UInt16}
    (h : CombinedText s az el) : bytes "AZ" <+: s := by
  cases h with
  | mk => exact ⟨_, (List.append_assoc _ _ _).symm⟩

/-! ## The two axis rules -/

theorem combinedSet_spec (s : Str) :
    Returns (combinedSet s) fun r => ∀ c, r = some c ↔
      ∃ az el, c = .azimuthElevation az el ∧ CombinedText s.bytes az el := by
  rw [combinedSet]
  by_cases hspace : byte ' ' ∈ s.bytes
  · obtain ⟨left, right, hs, hleft⟩ := exists_first hspace
    obtain ⟨hl, hr, hslice, hslice'⟩ := Str.slices_at (by decide) hs
    have hfind : s.find (lit " ") = some left.length := by
      rw [Str.find, hs]
      exact find_byte_append hleft
    obtain ⟨a, ha, haz⟩ := labelledAngle_spec ⟨left, hl⟩ (lit "AZ")
    obtain ⟨e, he, hel⟩ := labelledAngle_spec ⟨right, hr⟩ (lit "EL")
    simp only [lit_bytes] at haz hel
    rw [hfind]
    simp only [hslice, hslice', ok_bind, hs, combinedText_split hleft, ha, he,
      ← haz, ← hel]
    cases a with
    | none => exact ⟨none, rfl, by simp⟩
    | some az =>
        cases e with
        | none => exact ⟨none, rfl, by simp⟩
        | some el =>
            by_cases hrange : az ≤ 360 ∧ el ≤ 180
            · refine ⟨some (.azimuthElevation az el), by simp [hrange], fun c => ?_⟩
              constructor
              · intro h
                cases h
                exact ⟨az, el, rfl, rfl, rfl, hrange⟩
              · rintro ⟨az', el', rfl, haz', hel', -⟩
                cases haz'
                cases hel'
                rfl
            · refine ⟨none, by simp [hrange], fun c => ?_⟩
              constructor
              · intro h
                cases h
              · rintro ⟨az', el', -, haz', hel', hle⟩
                cases haz'
                cases hel'
                exact absurd hle hrange
  · have hfind : s.find (lit " ") = none := find_byte_none.mpr hspace
    rw [hfind]
    refine ⟨none, rfl, fun c => ?_⟩
    constructor
    · intro h
      cases h
    · rintro ⟨az, el, -, h⟩
      exact absurd h.space_mem hspace

/-- A number kept only within a bound, and turned into a command. -/
theorem ranged_spec {r : Option UInt16} {P : UInt16 → Prop}
    (hr : ∀ n, r = some n ↔ P n) (bound : UInt16) (f : UInt16 → Command)
    (c : Command) :
    (r.filter (· ≤ bound)).map f = some c ↔ ∃ n, c = f n ∧ P n ∧ n ≤ bound := by
  rw [Option.map_eq_some_iff]
  constructor
  · rintro ⟨n, hn, rfl⟩
    obtain ⟨h, hle⟩ := Option.filter_eq_some_iff.mp hn
    exact ⟨n, rfl, (hr n).mp h, by simpa using hle⟩
  · rintro ⟨n, rfl, hP, hle⟩
    exact ⟨n, Option.filter_eq_some_iff.mpr ⟨(hr n).mpr hP, by simpa using hle⟩, rfl⟩

/-- A number in range is the command of it, any other is no command. -/
theorem eq_ranged {r : Option Command} {f : UInt16 → Command} {v : Nat} {bound : UInt16}
    (h : ∀ c, r = some c ↔ ∃ n : UInt16, c = f n ∧ n.toNat = v ∧ n ≤ bound) :
    r = if v ≤ bound.toNat then some (f (UInt16.ofNat v)) else none := by
  by_cases hv : v ≤ bound.toNat
  · rw [if_pos hv]
    exact (h _).mpr ⟨_, rfl, toNat_ofNat_of_le hv, ofNat_le hv⟩
  · rw [if_neg hv, Option.eq_none_iff_forall_ne_some]
    intro c hc
    obtain ⟨n, -, rfl, hle⟩ := (h c).mp hc
    exact hv (UInt16.le_iff_toNat_le.mp hle)

/-- What the single-axis rule reads: a label, and an angle in range. -/
def SingleAxisText (s : List UInt8) (c : Command) : Prop :=
  (∃ t, s = bytes "AZ" ++ t ∧
    ∃ az, c = .azimuth az ∧ AngleText t az.toNat ∧ az ≤ 360) ∨
  (∃ t, s = bytes "EL" ++ t ∧
    ∃ el, c = .elevation el ∧ AngleText t el.toNat ∧ el ≤ 180)

theorem singleAxisText_az {u : List UInt8} {c : Command} :
    SingleAxisText (bytes "AZ" ++ u) c ↔
      ∃ az, c = .azimuth az ∧ AngleText u az.toNat ∧ az ≤ 360 := by
  have hEL : ∀ t, bytes "AZ" ++ u ≠ bytes "EL" ++ t := by simp [bytes, byte]
  simp only [SingleAxisText, List.append_cancel_left_eq, exists_eq_left', hEL, false_and,
    exists_false, or_false]

theorem singleAxisText_el {u : List UInt8} {c : Command} :
    SingleAxisText (bytes "EL" ++ u) c ↔
      ∃ el, c = .elevation el ∧ AngleText u el.toNat ∧ el ≤ 180 := by
  have hAZ : ∀ t, bytes "EL" ++ u ≠ bytes "AZ" ++ t := by simp [bytes, byte]
  simp only [SingleAxisText, List.append_cancel_left_eq, exists_eq_left', hAZ, false_and,
    exists_false, false_or]

/-- One axis of `singleAxisSet`. -/
theorem angle_in_range {val : Str} {bound : UInt16} {f : UInt16 → Command} :
    Returns (do
      let some n ← parseFloatU16 val | return none
      if n ≤ bound then return some (f n)
      return none) fun r => ∀ c, r = some c ↔ ∃ n, c = f n ∧ AngleText val.bytes n.toNat ∧
        n ≤ bound := by
  obtain ⟨r, hr, hiff⟩ := parseFloatU16_spec val
  refine ⟨(r.filter (· ≤ bound)).map f, ?_, ranged_spec hiff bound f⟩
  rw [hr]
  cases r with
  | none => rfl
  | some n =>
      by_cases hle : n ≤ bound
      · simp [hle]
      · simpa [hle] using UInt16.not_le.mp hle

theorem singleAxisSet_spec (s : Str) :
    Returns (singleAxisSet s) fun r => ∀ c, r = some c ↔ SingleAxisText s.bytes c := by
  rw [singleAxisSet]
  cases hAZ : s.stripPrefix (lit "AZ") with
  | some val =>
      have hs : s.bytes = bytes "AZ" ++ val.bytes := Str.stripPrefix_eq_some.mp hAZ
      have hEL : s.stripPrefix (lit "EL") = none := by
        rw [Str.stripPrefix_eq_none, hs]
        simp [bytes, byte]
      simp only [hEL, hs, singleAxisText_az]
      exact angle_in_range
  | none =>
      have hno : ∀ t, s.bytes ≠ bytes "AZ" ++ t := fun t ht =>
        Str.stripPrefix_eq_none.mp hAZ ⟨t, ht.symm⟩
      cases hEL : s.stripPrefix (lit "EL") with
      | some val =>
          have hs : s.bytes = bytes "EL" ++ val.bytes := Str.stripPrefix_eq_some.mp hEL
          simp only [hs, singleAxisText_el]
          exact angle_in_range
      | none =>
          have hno' : ∀ t, s.bytes ≠ bytes "EL" ++ t := fun t ht =>
            Str.stripPrefix_eq_none.mp hEL ⟨t, ht.symm⟩
          exact ⟨none, rfl, fun c => by simp [SingleAxisText, hno, hno']⟩

/-- **The axis rules**: the combined one decides where it reads the text,
the single-axis one elsewhere. -/
theorem axisSet_spec (s : Str) :
    Returns (axisSet s) fun r => ∀ c, r = some c ↔
      (∃ az el, c = .azimuthElevation az el ∧ CombinedText s.bytes az el) ∨
      (∀ az el, ¬ CombinedText s.bytes az el) ∧ SingleAxisText s.bytes c := by
  rw [axisSet]
  refine (combinedSet_spec s).bind fun r hr => ?_
  cases r with
  | some cmd =>
      obtain ⟨az, el, -, hboth⟩ := (hr cmd).mp rfl
      refine ⟨some cmd, rfl, fun c => ?_⟩
      rw [hr c]
      constructor
      · exact .inl
      · intro h
        exact h.resolve_right fun hone => hone.1 az el hboth
  | none =>
      have hone : ∀ az el, ¬ CombinedText s.bytes az el := fun az el h => by
        cases (hr _).mpr ⟨az, el, rfl, h⟩
      refine (singleAxisSet_spec s).mono fun r' hr' c => ?_
      rw [hr' c]
      constructor
      · intro h
        exact .inr ⟨hone, h⟩
      · intro h
        exact (h.resolve_left fun ⟨az, el, _, hboth⟩ => hone az el hboth).2

/-! ## The cascade -/

/-- The first letter of a GS-232 form is A, E, W or O. -/
theorem fixedCommand_of_letter {l : UInt8} (t : List UInt8)
    (h : l ∉ bytes "AEWO") : fixedCommand (l :: t) = .ok none := by
  simp only [show bytes "AEWO" = [byte 'A', byte 'E', byte 'W', byte 'O'] from rfl,
    List.mem_cons, List.not_mem_nil, or_false, not_or] at h
  obtain ⟨hA, hE, hW, hO⟩ := h
  unfold fixedCommand
  split <;> simp_all

/-- `AZ..` and `EL..` are not GS-232 forms: the second byte is no digit. -/
theorem fixedCommand_of_second {l b : UInt8} (t : List UInt8)
    (hl : l = byte 'A' ∨ l = byte 'E') (hb : isDigit b = false) :
    fixedCommand (l :: b :: t) = .ok none := by
  have hv : ∀ x y, parseU16_3digit b x y = .ok none := fun x y => by
    rw [parseU16_3digit, asciiDigit_none hb]
    rfl
  have hW : l ≠ byte 'W' := by rcases hl with rfl | rfl <;> decide
  have hO : l ≠ byte 'O' := by rcases hl with rfl | rfl <;> decide
  unfold fixedCommand
  split <;> simp_all

theorem exactCommand_sound {p : List UInt8} {c : Command}
    (h : exactCommand p = some c) : CommandText p c := by
  unfold exactCommand at h
  split_ifs at h with hC hS hQ hGS hGE hAZ hEL <;> cases h <;> subst p <;>
    exact .keyword (by decide)

theorem fixedCommand_sound (p : List UInt8) :
    Returns (fixedCommand p) fun r => ∀ c, r = some c → CommandText p c := by
  unfold fixedCommand
  split
  · rename_i l d0 d1 d2
    obtain ⟨r, hr, hiff⟩ := parseU16_3digit_spec d0 d1 d2
    by_cases hA : l = byte 'A'
    · subst hA
      refine ⟨(r.filter (· ≤ 360)).map .azimuth, by simp [hr], fun c hc => ?_⟩
      obtain ⟨az, rfl, h, hle⟩ := (ranged_spec hiff _ _ c).mp hc
      exact .azimuth3 h hle
    · by_cases hE : l = byte 'E'
      · subst hE
        refine ⟨(r.filter (· ≤ 180)).map .elevation, by simp [hr, byte], fun c hc => ?_⟩
        obtain ⟨el, rfl, h, hle⟩ := (ranged_spec hiff _ _ c).mp hc
        exact .elevation3 h hle
      · exact ⟨none, by simp [hA, hE], by simp⟩
  · rename_i l a0 a1 a2 sep e0 e1 e2
    by_cases hW : l = byte 'W' ∧ sep = byte ' '
    · obtain ⟨rfl, rfl⟩ := hW
      obtain ⟨a, ha, haz⟩ := parseU16_3digit_spec a0 a1 a2
      obtain ⟨e, he, hel⟩ := parseU16_3digit_spec e0 e1 e2
      simp only [ha, he, ok_bind, and_self, if_true]
      cases hfa : a.filter (· ≤ 360) with
      | none => exact ⟨none, rfl, by simp⟩
      | some az =>
          cases hfe : e.filter (· ≤ 180) with
          | none => exact ⟨none, rfl, by simp⟩
          | some el =>
              obtain ⟨ha', hazle⟩ := Option.filter_eq_some_iff.mp hfa
              obtain ⟨he', helle⟩ := Option.filter_eq_some_iff.mp hfe
              refine ⟨some (.azimuthElevation az el), rfl, fun c hc => ?_⟩
              cases hc
              exact .both3 ((haz az).mp ha') ((hel el).mp he') (by simpa using hazle)
                (by simpa using helle)
    · exact ⟨none, by simp [hW], by simp⟩
  · rename_i l s1 a0 a1 a2 s2 e0 e1 e2
    by_cases hO : l = byte 'O'
    · subst hO
      obtain ⟨a, ha, haz⟩ := parseSigned3digit_spec s1 a0 a1 a2
      obtain ⟨e, he, hel⟩ := parseSigned3digit_spec s2 e0 e1 e2
      simp only [ha, he, ok_bind, if_true]
      cases a with
      | none => exact ⟨none, rfl, by simp⟩
      | some az =>
          cases e with
          | none => exact ⟨none, rfl, by simp⟩
          | some el =>
              refine ⟨some (.offset az el), rfl, fun c hc => ?_⟩
              cases hc
              exact .offset ((haz az).mp rfl) ((hel el).mp rfl)
    · exact ⟨none, by simp [hO], by simp⟩
  · exact ⟨none, rfl, by simp⟩

/-- A word of the table. -/
theorem keyword_returns {k : String} {c : Command} (h : (k, c) ∈ keywords) :
    Returns (.ok (some c)) fun r => ∀ c', r = some c' → CommandText (bytes k) c' :=
  ⟨some c, rfl, fun c' hc => by cases hc; exact .keyword h⟩

/-- A number that makes a command, behind a label. -/
theorem number_returns {α : Type} {r : Option α} {f : α → Command} {p : List UInt8}
    (h : ∀ n, r = some n → CommandText p (f n)) :
    Returns (.ok (r.map f)) fun r => ∀ c, r = some c → CommandText p c := by
  refine ⟨_, rfl, fun c hc => ?_⟩
  obtain ⟨n, hn, rfl⟩ := Option.map_eq_some_iff.mp hc
  exact h n hn

theorem axisSet_sound (s : Str) :
    Returns (axisSet s) fun r => ∀ c, r = some c → CommandText s.bytes c := by
  refine (axisSet_spec s).mono fun r hr c hc => ?_
  have hv := s.valid
  rcases (hr c).mp hc with ⟨az, el, rfl, h⟩
    | ⟨hone, ⟨t, ht, az, rfl, hang, hle⟩ | ⟨t, ht, el, rfl, hang, hle⟩⟩
  · exact .both hv h
  all_goals
    rw [ht] at hv hone ⊢
    have htv := (Utf8.valid_append (by decide)).mp hv
  · exact .azimuth htv hang hle hone
  · exact .elevation htv hang hle

theorem tryParseEasycomm_sound (p : List UInt8) :
    Returns (tryParseEasycomm p) fun r => ∀ c, r = some c → CommandText p c := by
  rw [tryParseEasycomm]
  cases hs : fromUtf8 p with
  | none => exact ⟨none, rfl, by simp⟩
  | some s =>
  obtain rfl := fromUtf8_eq_some.mp hs
  simp only []
  by_cases h : s = lit "RESET"
  · rw [if_pos h, h]
    exact keyword_returns (by decide)
  rw [if_neg h]
  by_cases h : s = lit "PARK"
  · rw [if_pos h, h]
    exact keyword_returns (by decide)
  rw [if_neg h]
  by_cases h : s = lit "SA SE" ∨ s = lit "SA" ∨ s = lit "SE"
  · rw [if_pos h]
    rcases h with rfl | rfl | rfl <;> exact keyword_returns (by decide)
  rw [if_neg h]
  refine Str.stripPrefix_returns (fun val hval => ?_) fun _ => ?_
  · rw [hval]
    exact number_returns fun n hn => .velocityLeft (parseU32_eq_some.mp hn)
  refine Str.stripPrefix_returns (fun val hval => ?_) fun _ => ?_
  · rw [hval]
    exact number_returns fun n hn => .velocityRight (parseU32_eq_some.mp hn)
  refine Str.stripPrefix_returns (fun val hval => ?_) fun _ => ?_
  · rw [hval]
    exact number_returns fun n hn => .velocityUp (parseU32_eq_some.mp hn)
  refine Str.stripPrefix_returns (fun val hval => ?_) fun _ => ?_
  · rw [hval]
    exact number_returns fun n hn => .velocityDown (parseU32_eq_some.mp hn)
  refine Str.stripPrefix_returns (fun val hval => ?_) fun _ => ?_
  · rw [hval]
    refine (parseRegisterValue_spec val).bind fun r hr => ?_
    cases r with
    | none => exact ⟨none, rfl, by simp⟩
    | some rv =>
        refine ⟨_, rfl, fun c hc => ?_⟩
        cases hc
        exact .writeConfig ((hr _ _).mp rfl)
  refine Str.stripPrefix_returns (fun val hval => ?_) fun _ => ?_
  · rw [hval]
    exact number_returns fun n hn => .readConfig (parseU16_eq_some.mp hn)
  -- a bare `GS` reaches the axis rules too
  refine Str.stripPrefix_returns (fun val hval => ?_) fun _ => axisSet_sound s
  by_cases hempty : val.isEmpty = true
  · rw [if_neg (by simp [hempty])]
    exact axisSet_sound s
  · refine ⟨some .getStatusRegister, by simp [hempty], fun c hc => ?_⟩
    cases hc
    rw [hval]
    exact .statusRegister val.valid fun h => hempty (List.isEmpty_iff.mpr h)

/-- **Soundness**: what the decoder returns is spelt by the frame. -/
theorem decodeStripped_sound (p : List UInt8) :
    Returns (decodeStripped p) fun r => ∀ c, r = some c → CommandText p c := by
  rw [decodeStripped]
  by_cases hempty : p.isEmpty = true
  · exact ⟨none, if_pos hempty, by simp⟩
  rw [if_neg hempty]
  cases hexact : exactCommand p with
  | some cmd =>
      refine ⟨some cmd, rfl, fun c hc => ?_⟩
      cases hc
      exact exactCommand_sound hexact
  | none =>
      refine (fixedCommand_sound p).bind fun r hr => ?_
      cases r with
      | some cmd => exact ⟨some cmd, rfl, hr⟩
      | none => exact tryParseEasycomm_sound p

/-! ## Completeness -/

theorem decodeStripped_keyword {k : String} {c : Command} (h : (k, c) ∈ keywords) :
    decodeStripped (bytes k) = .ok (some c) := by
  have hall : ∀ kc ∈ keywords, decodeStripped (bytes kc.1) = .ok (some kc.2) := by decide
  exact hall (k, c) h

/-- The labels of the Easycomm forms. -/
def labels : List String := ["VL", "VR", "VU", "VD", "CW", "CR", "GS", "AZ", "EL"]

/-- A label with text behind it is no exact match and no GS-232 form. -/
theorem decodeStripped_label {k : String} {s : List UInt8} (hk : k ∈ labels)
    (hne : s ≠ []) :
    decodeStripped (bytes k ++ s) = tryParseEasycomm (bytes k ++ s) := by
  have hexact : exactCommand (bytes k ++ s) = none := by
    simp only [labels, List.mem_cons, List.not_mem_nil, or_false] at hk
    rcases hk with rfl | rfl | rfl | rfl | rfl | rfl | rfl | rfl | rfl <;>
      simp [exactCommand, bytes, byte, hne]
  have hfixed : fixedCommand (bytes k ++ s) = .ok none := by
    simp only [labels, List.mem_cons, List.not_mem_nil, or_false] at hk
    rcases hk with rfl | rfl | rfl | rfl | rfl | rfl | rfl | rfl | rfl <;>
      first
      | exact fixedCommand_of_letter _ (by decide)
      | exact fixedCommand_of_second _ (by decide) (by decide)
  rw [decodeStripped, if_neg (by simp [hne]), hexact, hfixed]
  rfl

/-- A GS-232 form: the exact matches are too short for it. -/
theorem decodeStripped_fixed {p : List UInt8} {c : Command} (hlen : 4 ≤ p.length)
    (hfixed : fixedCommand p = .ok (some c)) :
    decodeStripped p = .ok (some c) := by
  have hexact : exactCommand p = none := by
    unfold exactCommand
    repeat rw [if_neg (by rintro rfl; simp [bytes] at hlen)]
  rw [decodeStripped, if_neg (by rintro h; simp [List.isEmpty_iff.mp h] at hlen), hexact,
    hfixed]
  rfl

theorem Field3.cases {ds : List UInt8} {v : Nat} (h : Field3 ds v) :
    ∃ d0 d1 d2, ds = [d0, d1, d2] := by
  match ds, h.length with
  | [d0, d1, d2], _ => exact ⟨d0, d1, d2, rfl⟩

theorem parseU16_3digit_complete {d0 d1 d2 : UInt8} {n : UInt16}
    (h : Field3 [d0, d1, d2] n.toNat) : parseU16_3digit d0 d1 d2 = .ok (some n) := by
  obtain ⟨r, hr, hiff⟩ := parseU16_3digit_spec d0 d1 d2
  rw [hr, (hiff n).mpr h]

theorem SignedField3.cases {ds : List UInt8} {v : Int} (h : SignedField3 ds v) :
    ∃ s d0 d1 d2, ds = [s, d0, d1, d2] := by
  cases h with
  | plus h | minus h =>
      obtain ⟨d0, d1, d2, rfl⟩ := h.cases
      exact ⟨_, d0, d1, d2, rfl⟩

theorem parseSigned3digit_complete {s d0 d1 d2 : UInt8} {n : Int16}
    (h : SignedField3 [s, d0, d1, d2] n.toInt) :
    parseSigned3digit s d0 d1 d2 = .ok (some n) := by
  obtain ⟨r, hr, hiff⟩ := parseSigned3digit_spec s d0 d1 d2
  rw [hr, (hiff n).mpr h]

theorem parseRegisterValue_complete {s : Str} {reg : UInt16} {val : Int32}
    (h : RegisterText s.bytes reg.toNat val.toInt) :
    parseRegisterValue s = .ok (some (reg, val)) := by
  obtain ⟨r, hr, hiff⟩ := parseRegisterValue_spec s
  rw [hr, (hiff reg val).mpr h]

/-- Behind `AZ` and `EL` only the axis rules apply. -/
theorem tryParseEasycomm_axes {p : List UInt8} (hv : Utf8.Valid p)
    (hp : bytes "AZ" <+: p ∨ bytes "EL" <+: p) :
    tryParseEasycomm p = axisSet ⟨p, hv⟩ := by
  rw [tryParseEasycomm, fromUtf8_valid hv]
  rcases hp with ⟨t, rfl⟩ | ⟨t, rfl⟩ <;> simp [Str.ext_iff, Str.stripPrefix, bytes, byte]

theorem tryParseEasycomm_axisText {p : List UInt8} {c : Command} (hv : Utf8.Valid p)
    (hp : bytes "AZ" <+: p ∨ bytes "EL" <+: p)
    (h : (∃ az el, c = .azimuthElevation az el ∧ CombinedText p az el) ∨
      (∀ az el, ¬ CombinedText p az el) ∧ SingleAxisText p c) :
    tryParseEasycomm p = .ok (some c) := by
  obtain ⟨r, hr, hiff⟩ := axisSet_spec ⟨p, hv⟩
  rw [tryParseEasycomm_axes hv hp, hr, (hiff c).mpr h]

/-- **Completeness**: every spelling of a command is decoded to it. -/
theorem decodeStripped_complete {p : List UInt8} {c : Command} (h : CommandText p c) :
    decodeStripped p = .ok (some c) := by
  cases h with
  | keyword h => exact decodeStripped_keyword h
  | azimuth3 h hle =>
      obtain ⟨d0, d1, d2, rfl⟩ := h.cases
      refine decodeStripped_fixed (by simp [bytes]) ?_
      simp [fixedCommand, bytes, parseU16_3digit_complete h, hle]
  | elevation3 h hle =>
      obtain ⟨d0, d1, d2, rfl⟩ := h.cases
      refine decodeStripped_fixed (by simp [bytes]) ?_
      simp [fixedCommand, bytes, byte, parseU16_3digit_complete h, hle]
  | both3 haz hel hazle helle =>
      obtain ⟨a0, a1, a2, rfl⟩ := haz.cases
      obtain ⟨e0, e1, e2, rfl⟩ := hel.cases
      refine decodeStripped_fixed (by simp [bytes]) ?_
      simp [fixedCommand, bytes, parseU16_3digit_complete haz,
        parseU16_3digit_complete hel, Option.filter, hazle, helle]
  | offset haz hel =>
      obtain ⟨s1, a0, a1, a2, rfl⟩ := haz.cases
      obtain ⟨s2, e0, e1, e2, rfl⟩ := hel.cases
      refine decodeStripped_fixed (by simp [bytes]) ?_
      simp [fixedCommand, bytes, parseSigned3digit_complete haz,
        parseSigned3digit_complete hel]
  | velocityLeft h | velocityRight h | velocityUp h | velocityDown h =>
      rw [decodeStripped_label (by decide) h.ne_nil, tryParseEasycomm,
        fromUtf8_valid ((Utf8.valid_append (by decide)).mpr (numeral_valid h))]
      simp [Str.ext_iff, Str.stripPrefix, bytes, byte, Str.parseU32, parseU32_eq_some.mpr h]
  | @writeConfig s reg val h =>
      have hv := registerText_valid h
      have hreg : parseRegisterValue ⟨s, hv⟩ = .ok (some (reg, val)) :=
        parseRegisterValue_complete h
      rw [decodeStripped_label (by decide) (List.ne_nil_of_mem h.comma_mem), tryParseEasycomm,
        fromUtf8_valid ((Utf8.valid_append (by decide)).mpr hv)]
      simp [Str.ext_iff, Str.stripPrefix, bytes, byte, hreg]
  | readConfig h =>
      rw [decodeStripped_label (by decide) h.ne_nil, tryParseEasycomm,
        fromUtf8_valid ((Utf8.valid_append (by decide)).mpr (numeral_valid h))]
      simp [Str.ext_iff, Str.stripPrefix, bytes, byte, Str.parseU16, parseU16_eq_some.mpr h]
  | statusRegister hv hne =>
      rw [decodeStripped_label (by decide) hne, tryParseEasycomm,
        fromUtf8_valid ((Utf8.valid_append (by decide)).mpr hv)]
      simp [Str.ext_iff, Str.stripPrefix, bytes, byte, Str.isEmpty, hne]
  | both hv h =>
      obtain ⟨t, rfl⟩ := h.prefix_AZ
      have hne : t ≠ [] := by
        rintro rfl
        exact absurd h.space_mem (by decide)
      rw [decodeStripped_label (by decide) hne]
      exact tryParseEasycomm_axisText hv (.inl h.prefix_AZ) (.inl ⟨_, _, rfl, h⟩)
  | azimuth hv h hle hone =>
      rw [decodeStripped_label (by decide) h.ne_nil]
      exact tryParseEasycomm_axisText ((Utf8.valid_append (by decide)).mpr hv)
        (.inl (List.prefix_append _ _)) (.inr ⟨hone, .inl ⟨_, rfl, _, rfl, h, hle⟩⟩)
  | @elevation s _ hv h hle =>
      have hone : ∀ a e, ¬ CombinedText (bytes "EL" ++ s) a e := fun a e hc => by
        have := hc.prefix_AZ
        simp [bytes, byte] at this
      rw [decodeStripped_label (by decide) h.ne_nil]
      exact tryParseEasycomm_axisText ((Utf8.valid_append (by decide)).mpr hv)
        (.inr (List.prefix_append _ _)) (.inr ⟨hone, .inr ⟨_, rfl, _, rfl, h, hle⟩⟩)

/-- **The decoder reads its language**: it never panics, and it returns
exactly the command the text spells. -/
theorem decodeStripped_spec (p : List UInt8) :
    Returns (decodeStripped p) fun r => ∀ c, r = some c ↔ CommandText p c := by
  obtain ⟨r, hr, hsound⟩ := decodeStripped_sound p
  refine ⟨r, hr, fun c => ⟨hsound c, fun h => ?_⟩⟩
  rw [decodeStripped_complete h] at hr
  exact (Except.ok.inj hr).symm

/-- A text spells at most one command. -/
theorem CommandText.unique {p : List UInt8} {c d : Command} (hc : CommandText p c)
    (hd : CommandText p d) : c = d := by
  have h := (decodeStripped_complete hc).symm.trans (decodeStripped_complete hd)
  exact Option.some.inj (Except.ok.inj h)

/-! ## The checksum suffix -/

/-- What is kept of a raw frame: the part before the last `*` if two bytes
or more follow it, else the whole frame. The bytes after the `*` are not
looked at. -/
inductive Kept : List UInt8 → List UInt8 → Prop where
  | cut {p t : List UInt8} (ht : byte '*' ∉ t) (hlen : 2 ≤ t.length) :
      Kept (p ++ byte '*' :: t) p
  | short {p t : List UInt8} (ht : byte '*' ∉ t) (hlen : t.length < 2) :
      Kept (p ++ byte '*' :: t) (p ++ byte '*' :: t)
  | bare {p : List UInt8} (hp : byte '*' ∉ p) : Kept p p

theorem rposition_star {frame : List UInt8} {pos : Nat} :
    rposition (fun b => b == byte '*') frame = some pos ↔
      ∃ p t, frame = p ++ byte '*' :: t ∧ p.length = pos ∧ byte '*' ∉ t := by
  rw [rposition_eq_some]
  constructor
  · rintro ⟨p, b, t, rfl, hlen, hb, ht⟩
    obtain rfl := beq_iff_eq.mp hb
    exact ⟨p, t, rfl, hlen, fun hmem => by simpa using ht _ hmem⟩
  · rintro ⟨p, t, rfl, hlen, ht⟩
    refine ⟨p, _, t, rfl, hlen, by simp, fun y hy => ?_⟩
    simpa using fun h : y = byte '*' => ht (h ▸ hy)

theorem stripCmdChecksum_kept {frame p : List UInt8} (h : Kept frame p) :
    stripCmdChecksum frame = .ok p := by
  rw [stripCmdChecksum]
  cases h with
  | @cut p t ht hlen =>
      have hpos := rposition_star.mpr ⟨p, t, rfl, rfl, ht⟩
      rw [if_pos (by simp only [List.length_append, List.length_cons]; omega), hpos]
      simp only [List.length_append, List.length_cons]
      rw [if_pos (by omega), sliceTo_append]
  | @short p t ht hlen =>
      have hpos := rposition_star.mpr ⟨p, t, rfl, rfl, ht⟩
      by_cases h3 : 3 ≤ (p ++ byte '*' :: t).length
      · rw [if_pos h3, hpos]
        simp only [List.length_append, List.length_cons]
        rw [if_neg (by omega)]
        rfl
      · rw [if_neg h3]
        rfl
  | bare hp =>
      have hpos : rposition (fun b => b == byte '*') frame = none := by
        rw [rposition_eq_none]
        intro b hb
        simpa using fun h : b = byte '*' => hp (h ▸ hb)
      rw [hpos]
      split <;> rfl

/-- Something is kept of every frame. -/
theorem exists_kept (frame : List UInt8) : ∃ p, Kept frame p := by
  cases hpos : rposition (fun b => b == byte '*') frame with
  | none =>
      refine ⟨frame, .bare fun hmem => ?_⟩
      simpa using rposition_eq_none.mp hpos _ hmem
  | some pos =>
      obtain ⟨p, t, rfl, -, ht⟩ := rposition_star.mp hpos
      by_cases hlen : 2 ≤ t.length
      · exact ⟨p, .cut ht hlen⟩
      · exact ⟨_, .short ht (by omega)⟩

theorem decodeCommand_kept {frame p : List UInt8} (h : Kept frame p) :
    decodeCommand frame = decodeStripped p := by
  rw [decodeCommand, stripCmdChecksum_kept h]
  rfl

/-- A label and a text without a star, read as a command: only the axis
rules apply. -/
theorem decodeCommand_axis {k : String} {u : List UInt8} (hk : k = "AZ" ∨ k = "EL")
    (hu : byte '*' ∉ u) (hne : u ≠ []) (c : Command) :
    decodeCommand (bytes k ++ u) = .ok (some c) ↔ Utf8.Valid u ∧
      ((∃ az el, c = .azimuthElevation az el ∧ CombinedText (bytes k ++ u) az el) ∨
        (∀ az el, ¬ CombinedText (bytes k ++ u) az el) ∧
          SingleAxisText (bytes k ++ u) c) := by
  have hlabel : k ∈ labels ∧ Utf8.Valid (bytes k) ∧ byte '*' ∉ bytes k := by
    rcases hk with rfl | rfl <;> decide
  have hstar : byte '*' ∉ bytes k ++ u := by
    rw [List.mem_append, not_or]
    exact ⟨hlabel.2.2, hu⟩
  rw [decodeCommand_kept (.bare hstar), decodeStripped_label hlabel.1 hne]
  by_cases hv : Utf8.Valid u
  · have hvk := (Utf8.valid_append hlabel.2.1).mpr hv
    have hpre : bytes "AZ" <+: bytes k ++ u ∨ bytes "EL" <+: bytes k ++ u := by
      rcases hk with rfl | rfl
      · exact .inl (List.prefix_append _ _)
      · exact .inr (List.prefix_append _ _)
    obtain ⟨r, hr, hiff⟩ := axisSet_spec ⟨_, hvk⟩
    rw [tryParseEasycomm_axes hvk hpre, hr, Except.ok.injEq, hiff c]
    simp only [hv, true_and]
  · have hvk : ¬ Utf8.Valid (bytes k ++ u) := fun h =>
      hv ((Utf8.valid_append hlabel.2.1).mp h)
    rw [tryParseEasycomm, fromUtf8_eq_none.mpr hvk]
    simp [hv]

/-- The frame spells some command, whatever stands behind a cut star. -/
def Spells (frame : List UInt8) : Prop := ∃ c p, Kept frame p ∧ CommandText p c

/-- **The command decoder on a raw frame**: no panic, and exactly the
command that the kept part spells. -/
theorem decodeCommand_spec (frame : List UInt8) :
    Returns (decodeCommand frame) fun r => ∀ c, r = some c ↔
      ∃ p, Kept frame p ∧ CommandText p c := by
  obtain ⟨p, hp⟩ := exists_kept frame
  rw [decodeCommand_kept hp]
  refine (decodeStripped_spec p).mono fun r hr c => ?_
  rw [hr]
  constructor
  · exact fun h => ⟨p, hp, h⟩
  · rintro ⟨q, hq, h⟩
    have hpq : p = q := Except.ok.inj
      ((stripCmdChecksum_kept hp).symm.trans (stripCmdChecksum_kept hq))
    rwa [hpq]

end Easycom
