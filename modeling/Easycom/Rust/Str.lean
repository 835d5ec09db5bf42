import Easycom.Rust.Decimal
import Easycom.Rust.Utf8

/-!
# Rust — Str

`&str`: a byte string that carries the proof of its well-formedness, so
that `from_utf8` is the only way in and no operation can leave a broken
string behind. Slicing checks the character boundary and panics off it,
as Rust does; searching works on bytes and returns byte offsets.
-/

namespace Rust

/-- A string slice. -/
structure Str where
  bytes : List UInt8
  valid : Utf8.Valid bytes
  deriving DecidableEq

/-- `core::str::from_utf8(bs).ok()`. -/
def fromUtf8 (bs : List UInt8) : Option Str :=
  if h : Utf8.Valid bs then some ⟨bs, h⟩ else none

/-- A `str` literal. -/
def lit (s : String) (h : Utf8.Valid (bytes s) := by decide) : Str :=
  ⟨Rust.bytes s, h⟩

/-- The offset of the first occurrence of `pat`. -/
def find (pat : List UInt8) : List UInt8 → Option Nat
  | [] => if pat.isPrefixOf [] then some 0 else none
  | b :: bs =>
      if pat.isPrefixOf (b :: bs) then some 0 else (find pat bs).map (· + 1)

/-- `is_char_boundary` on the bytes of a string. -/
def isCharBoundary (bs : List UInt8) (i : Nat) : Bool :=
  if i = 0 then true
  else
    match bs[i]? with
    | some b => !Utf8.isContinuation b
    | none => i = bs.length

namespace Str

theorem valid_take {bs : List UInt8} {i : Nat} (h : Utf8.Valid bs)
    (hi : isCharBoundary bs i = true) : Utf8.Valid (bs.take i) := by
  rw [isCharBoundary] at hi
  split at hi
  · rename_i h0
    subst h0
    exact Utf8.valid_nil
  · split at hi
    · rename_i b hb
      obtain ⟨hlt, rfl⟩ := List.getElem?_eq_some_iff.mp hb
      rw [← List.take_append_drop i bs, List.drop_eq_getElem_cons hlt] at h
      exact (Utf8.valid_split h (by simpa using hi)).1
    · rwa [List.take_of_length_le (by simp at hi; omega)]

theorem valid_drop {bs : List UInt8} {i : Nat} (h : Utf8.Valid bs)
    (hi : isCharBoundary bs i = true) : Utf8.Valid (bs.drop i) := by
  have ht := valid_take h hi
  rw [← List.take_append_drop i bs] at h
  exact (Utf8.valid_append ht).mp h

theorem isCharBoundary_drop {bs : List UInt8} {i j : Nat} (hij : i ≤ j)
    (hj : isCharBoundary bs j = true) :
    isCharBoundary (bs.drop i) (j - i) = true := by
  rw [isCharBoundary] at hj ⊢
  split
  · rfl
  · rename_i h0
    rw [if_neg (by omega)] at hj
    rw [List.getElem?_drop, show i + (j - i) = j by omega]
    cases hb : bs[j]? with
    | some b => simpa [hb] using hj
    | none =>
        simp only [hb, decide_eq_true_eq] at hj
        simp [hj]

theorem valid_drop_prefix {bs p : List UInt8} (h : Utf8.Valid bs)
    (hp : Utf8.Valid p) (hpre : p <+: bs) : Utf8.Valid (bs.drop p.length) := by
  obtain ⟨t, rfl⟩ := hpre
  rw [List.drop_left]
  exact (Utf8.valid_append hp).mp h

/-! ## The operations -/

/-- `&s[..i]`. -/
def sliceTo (s : Str) (i : Nat) : Exec Str :=
  if h : isCharBoundary s.bytes i = true then .ok ⟨s.bytes.take i, valid_take s.valid h⟩
  else .error .charBoundary

/-- `&s[i..]`. -/
def sliceFrom (s : Str) (i : Nat) : Exec Str :=
  if h : isCharBoundary s.bytes i = true then .ok ⟨s.bytes.drop i, valid_drop s.valid h⟩
  else .error .charBoundary

/-- `s.get(i..j)`. -/
def get (s : Str) (i j : Nat) : Option Str :=
  if h : i ≤ j ∧ isCharBoundary s.bytes i = true ∧ isCharBoundary s.bytes j = true then
    some ⟨(s.bytes.drop i).take (j - i),
      valid_take (valid_drop s.valid h.2.1) (isCharBoundary_drop h.1 h.2.2)⟩
  else none

/-- `s.strip_prefix(p)`. -/
def stripPrefix (s p : Str) : Option Str :=
  if h : p.bytes <+: s.bytes then
    some ⟨s.bytes.drop p.bytes.length, valid_drop_prefix s.valid p.valid h⟩
  else none

/-- `s.find(pat)`. -/
def find (s pat : Str) : Option Nat := Rust.find pat.bytes s.bytes

def len (s : Str) : Nat := s.bytes.length

def isEmpty (s : Str) : Bool := s.bytes.isEmpty

def parseU16 (s : Str) : Option UInt16 := Rust.parseU16 s.bytes

def parseU32 (s : Str) : Option UInt32 := Rust.parseU32 s.bytes

def parseI32 (s : Str) : Option Int32 := Rust.parseI32 s.bytes

@[ext] theorem ext {s t : Str} (h : s.bytes = t.bytes) : s = t := by
  cases s
  cases t
  cases h
  rfl

end Str

/-! ## What they compute -/

@[simp] theorem lit_bytes (s : String) (h : Utf8.Valid (bytes s)) :
    (lit s h).bytes = bytes s := rfl

theorem fromUtf8_eq_some {bs : List UInt8} {s : Str} :
    fromUtf8 bs = some s ↔ s.bytes = bs := by
  rw [fromUtf8]
  constructor
  · intro h
    split at h <;> cases h
    rfl
  · rintro rfl
    rw [dif_pos s.valid]

theorem fromUtf8_eq_none {bs : List UInt8} :
    fromUtf8 bs = none ↔ ¬ Utf8.Valid bs := by
  rw [fromUtf8]
  split <;> simp_all

theorem fromUtf8_valid {bs : List UInt8} (h : Utf8.Valid bs) :
    fromUtf8 bs = some ⟨bs, h⟩ := dif_pos h

@[simp] theorem fromUtf8_bytes (s : Str) : fromUtf8 s.bytes = some s :=
  fromUtf8_eq_some.mpr rfl

theorem Str.stripPrefix_eq_some {s p r : Str} :
    s.stripPrefix p = some r ↔ s.bytes = p.bytes ++ r.bytes := by
  rw [stripPrefix]
  constructor
  · intro h
    split at h
    · rename_i hp
      cases h
      exact (List.prefix_iff_eq_append.mp hp).symm
    · cases h
  · intro h
    rw [dif_pos ⟨r.bytes, h.symm⟩]
    congr 1
    ext1
    simp [h]

theorem Str.stripPrefix_eq_none {s p : Str} :
    s.stripPrefix p = none ↔ ¬ p.bytes <+: s.bytes := by
  rw [stripPrefix]
  split <;> simp_all

/-- One rule of a cascade over prefixes: the text behind the prefix, or
the rest of the rules for a text without it. -/
theorem Str.stripPrefix_returns {β : Type} {s p : Str} {hit : Str → Exec β}
    {miss : Exec β} {Q : β → Prop}
    (hhit : ∀ val, s.bytes = p.bytes ++ val.bytes → Returns (hit val) Q)
    (hmiss : ¬ p.bytes <+: s.bytes → Returns miss Q) :
    Returns (match s.stripPrefix p with
      | some val => hit val
      | _ => miss) Q := by
  cases h : s.stripPrefix p with
  | some val => exact hhit val (stripPrefix_eq_some.mp h)
  | none => exact hmiss (stripPrefix_eq_none.mp h)

/-- The first occurrence splits the string; the pattern does not occur
earlier. -/
theorem find_eq_some {pat bs : List UInt8} {i : Nat} :
    find pat bs = some i ↔
      pat <+: bs.drop i ∧ i ≤ bs.length ∧ ∀ j < i, ¬ pat <+: bs.drop j := by
  induction bs generalizing i with
  | nil =>
      cases i with
      | zero => simp [find]
      | succ i => simp [find]
  | cons b bs ih =>
      rw [find]
      by_cases hp : pat <+: b :: bs
      · rw [if_pos (List.isPrefixOf_iff_prefix.mpr hp)]
        constructor
        · intro h
          cases h
          exact ⟨hp, by simp, fun j hj => absurd hj (by omega)⟩
        · rintro ⟨-, -, hmin⟩
          cases i with
          | zero => rfl
          | succ i => exact absurd hp (hmin 0 (by omega))
      · rw [if_neg (by simpa using hp), Option.map_eq_some_iff]
        constructor
        · rintro ⟨k, hk, rfl⟩
          obtain ⟨hpre, hle, hmin⟩ := ih.mp hk
          refine ⟨hpre, by simpa using hle, ?_⟩
          intro j hj
          cases j with
          | zero => exact hp
          | succ j => exact hmin j (by omega)
        · rintro ⟨hpre, hle, hmin⟩
          cases i with
          | zero => exact absurd hpre hp
          | succ i =>
              refine ⟨i, ih.mpr ⟨hpre, by simpa using hle, ?_⟩, rfl⟩
              exact fun j hj => hmin (j + 1) (by omega)

theorem find_eq_none {pat bs : List UInt8} :
    find pat bs = none ↔ ¬ pat <:+: bs := by
  induction bs with
  | nil => simp [find]
  | cons b bs ih =>
      rw [find, List.infix_cons_iff, not_or, ← ih]
      by_cases hp : pat <+: b :: bs
      · simp [hp]
      · simp [hp]

/-- A string without the byte `c` has no occurrence of it. -/
theorem find_byte_none {c : UInt8} {bs : List UInt8} :
    find [c] bs = none ↔ c ∉ bs := by
  rw [find_eq_none, List.singleton_infix_iff]

theorem find_byte_append {c : UInt8} {xs ys : List UInt8} (h : c ∉ xs) :
    find [c] (xs ++ c :: ys) = some xs.length := by
  induction xs with
  | nil => simp [find, List.isPrefixOf]
  | cons b xs ih =>
      simp only [List.mem_cons, not_or] at h
      have hb : (c == b) = false := by simpa using h.1
      simp [find, List.isPrefixOf, hb, ih h.2]

/-- A byte that occurs splits the string at its first occurrence. -/
theorem exists_first {c : UInt8} {bs : List UInt8} (h : c ∈ bs) :
    ∃ xs ys, bs = xs ++ c :: ys ∧ c ∉ xs := by
  induction bs with
  | nil => simp at h
  | cons b bs ih =>
      by_cases hb : c = b
      · exact ⟨[], bs, by rw [hb]; rfl, by simp⟩
      · obtain ⟨xs, ys, rfl, hx⟩ := ih ((List.mem_cons.mp h).resolve_left hb)
        exact ⟨b :: xs, ys, rfl, by simp [hb, hx]⟩

/-- Two splits at the first occurrence of a byte are the same split. -/
theorem append_cons_inj {c : UInt8} {xs xs' ys ys' : List UInt8} (h : c ∉ xs)
    (h' : c ∉ xs') : xs ++ c :: ys = xs' ++ c :: ys' ↔ xs = xs' ∧ ys = ys' := by
  constructor
  · intro heq
    have hlen : xs.length = xs'.length := by
      have := @find_byte_append c xs ys h
      rw [heq, find_byte_append h'] at this
      exact (Option.some.inj this).symm
    obtain ⟨rfl, htail⟩ := List.append_inj heq hlen
    exact ⟨rfl, List.tail_eq_of_cons_eq htail⟩
  · rintro ⟨rfl, rfl⟩
    rfl

/-- So are two splits at its last occurrence. -/
theorem append_cons_inj_last {c : UInt8} {xs xs' ys ys' : List UInt8} (h : c ∉ ys)
    (h' : c ∉ ys') : xs ++ c :: ys = xs' ++ c :: ys' ↔ xs = xs' ∧ ys = ys' := by
  have hrev := @append_cons_inj c ys.reverse ys'.reverse xs.reverse xs'.reverse
    (by simpa using h) (by simpa using h')
  rw [← List.reverse_inj]
  simpa [and_comm] using hrev

/-- Where the separator occurs once, its occurrence is the only one. -/
theorem append_cons_inj_once {c : UInt8} {xs xs' ys ys' : List UInt8} (hx : c ∉ xs)
    (hy : c ∉ ys) : xs ++ c :: ys = xs' ++ c :: ys' ↔ xs = xs' ∧ ys = ys' := by
  constructor
  · intro h
    have hcount := congrArg (List.count c) h
    simp only [List.count_append, List.count_cons_self, List.count_eq_zero_of_not_mem hx,
      List.count_eq_zero_of_not_mem hy] at hcount
    have hx' : c ∉ xs' := List.count_eq_zero.mp (by omega)
    exact (append_cons_inj hx hx').mp h
  · rintro ⟨rfl, rfl⟩
    rfl

theorem isCharBoundary_le {bs : List UInt8} {i : Nat}
    (h : isCharBoundary bs i = true) : i ≤ bs.length := by
  rw [isCharBoundary] at h
  split at h
  · omega
  · split at h
    · rename_i b hb
      obtain ⟨hlt, -⟩ := List.getElem?_eq_some_iff.mp hb
      omega
    · simp at h
      omega

/-- An ASCII byte is on a character boundary. -/
theorem isCharBoundary_at {c : UInt8} {xs ys : List UInt8} (hc : c < 0x80) :
    isCharBoundary (xs ++ c :: ys) xs.length = true := by
  rw [isCharBoundary]
  simp [Utf8.ascii_not_continuation hc]

/-- So is what follows it. -/
theorem isCharBoundary_after {c : UInt8} {xs ys : List UInt8} (hc : c < 0x80)
    (hv : Utf8.Valid (xs ++ c :: ys)) :
    isCharBoundary (xs ++ c :: ys) (xs.length + 1) = true := by
  obtain ⟨-, hy⟩ := (Utf8.valid_cut hc).mp hv
  rw [isCharBoundary, if_neg (by omega), List.getElem?_append_right (by omega),
    Nat.add_sub_cancel_left, List.getElem?_cons_succ]
  cases ys with
  | nil => simp
  | cons y ys => simp [Utf8.valid_head hy]

/-- **Cutting a string at an ASCII byte never panics**: the slices on
both sides of the byte are on character boundaries. -/
theorem Str.slices_at {s : Str} {c : UInt8} {xs ys : List UInt8}
    (hc : c < 0x80) (hs : s.bytes = xs ++ c :: ys) :
    ∃ (hx : Utf8.Valid xs) (hy : Utf8.Valid ys),
      s.sliceTo xs.length = .ok ⟨xs, hx⟩ ∧
      s.sliceFrom (xs.length + 1) = .ok ⟨ys, hy⟩ := by
  have hv := s.valid
  rw [hs] at hv
  obtain ⟨hx, hy⟩ := (Utf8.valid_cut hc).mp hv
  refine ⟨hx, hy, ?_, ?_⟩
  · rw [sliceTo, dif_pos (by rw [hs]; exact isCharBoundary_at hc)]
    congr 1
    ext1
    simp [hs]
  · rw [sliceFrom, dif_pos (by rw [hs]; exact isCharBoundary_after hc hv)]
    congr 1
    ext1
    simp [hs]

theorem Str.get_eq_some {s d : Str} {i j : Nat} :
    s.get i j = some d ↔ i ≤ j ∧ isCharBoundary s.bytes i = true ∧
      isCharBoundary s.bytes j = true ∧ d.bytes = (s.bytes.drop i).take (j - i) := by
  rw [get]
  constructor
  · intro h
    split at h
    · rename_i hb
      cases h
      exact ⟨hb.1, hb.2.1, hb.2.2, rfl⟩
    · cases h
  · rintro ⟨hij, hi, hj, hd⟩
    rw [dif_pos ⟨hij, hi, hj⟩]
    congr 1
    ext1
    exact hd.symm

end Rust
