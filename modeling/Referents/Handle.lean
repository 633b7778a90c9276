/-!
# Handles and link words

An object is addressed by a **handle**, the index of its slot.  Inside an
object a handle is kept as a 64-bit **link word**: `0` is the null handle and
`i + 1` is the handle of slot `i`, so every handle fits in 32 bits and the
whole range `0 … 2^32 - 1` is used.

* `ofIndex?_eq_some_iff`, `ofIndex?_toNat` — the handle of a slot, and its word.
* `decode_encode`, `encode_decode` — the two directions undo each other on
  words below `2^32`; `decode` takes every larger word for null.
* `Link.target_of`, `Link.of_target` — the same for stored links, where the
  bound on the word is part of the type.
-/

namespace Referents

/-- The handle of the object in slot `index`. -/
structure Handle where
  index : Nat
  index_lt : index < 0xFFFFFFFF
deriving DecidableEq

namespace Handle

/-- A handle is determined by its index. -/
@[ext] theorem ext {a b : Handle} (h : a.index = b.index) : a = b := by
  cases a; cases b; simp_all

/-- An index as a 32-bit number, if it is one. -/
def narrow? (i : Nat) : Option UInt32 :=
  if i < UInt32.size then some (UInt32.ofNat i) else none

/-- The number after `i`, unless `i` is the last one. -/
def succ? (i : UInt32) : Option UInt32 :=
  if i.toNat + 1 < UInt32.size then some (i + 1) else none

/-- The handle with the word `w`, unless that is zero. -/
def ofWord? (w : UInt32) : Option Handle :=
  if h : w.toNat = 0 then none else some ⟨w.toNat - 1, by have := w.toNat_lt; omega⟩

/-- The handle of slot `i`, if a handle is wide enough for it. -/
def ofIndex? (i : Nat) : Option Handle := ((narrow? i).bind succ?).bind ofWord?

/-- The short text of a handle in messages. -/
def text (o : Handle) : String := s!"#{o.index}"

/-- The long text of a handle. -/
def longText (o : Handle) : String := s!"Oop({o.text})"

/-- The long text of a handle that may be null. -/
def longTextOption : Option Handle → String
  | none => "None"
  | some o => s!"Some({o.longText})"

/-- The link word of a handle or of null. -/
def encode : Option Handle → UInt64
  | none => 0
  | some o => UInt64.ofNat (o.index + 1)

/-- What a link word stands for; words of `2^32` and above stand for null. -/
def decode (w : UInt64) : Option Handle :=
  if h : 0 < w.toNat ∧ w.toNat < 0x100000000 then some ⟨w.toNat - 1, by omega⟩ else none

/-- All conversions succeed for the index of a handle. -/
theorem ofIndex?_of_lt {i : Nat} (h : i < 0xFFFFFFFF) : ofIndex? i = some ⟨i, h⟩ := by
  have hi : (UInt32.ofNat i).toNat = i := by
    rw [UInt32.toNat_ofNat']
    exact Nat.mod_eq_of_lt (by omega)
  have hword : (UInt32.ofNat i + 1).toNat = i + 1 := by
    rw [UInt32.toNat_add, hi]
    exact Nat.mod_eq_of_lt (show i + 1 < 2 ^ 32 by omega)
  have hnarrow : narrow? i = some (UInt32.ofNat i) := if_pos (show i < 2 ^ 32 by omega)
  have hsucc : succ? (UInt32.ofNat i) = some (UInt32.ofNat i + 1) :=
    if_pos (by rw [hi]; exact (show i + 1 < 2 ^ 32 by omega))
  have hofWord : ofWord? (UInt32.ofNat i + 1) = some ⟨i, h⟩ := by
    rw [ofWord?, dif_neg (by omega)]
    exact congrArg some (Handle.ext (by show _ - 1 = i; omega))
  rw [ofIndex?, hnarrow, Option.bind_some, hsucc, Option.bind_some, hofWord]

/-- For a larger index the number after it is no 32-bit number, if the index is one at all. -/
theorem ofIndex?_of_le {i : Nat} (h : 0xFFFFFFFF ≤ i) : ofIndex? i = none := by
  by_cases hi : i < UInt32.size
  · have hlast : i = 0xFFFFFFFF := by
      have : i < 2 ^ 32 := hi
      omega
    subst hlast
    rfl
  · rw [ofIndex?, narrow?, if_neg hi]
    rfl

/-- An index gives the handle of this index or none at all. -/
theorem ofIndex?_eq_some_iff {i : Nat} {o : Handle} : ofIndex? i = some o ↔ o.index = i := by
  constructor
  · intro h
    by_cases hi : i < 0xFFFFFFFF
    · rw [ofIndex?_of_lt hi] at h
      cases h
      rfl
    · rw [ofIndex?_of_le (by omega)] at h
      cases h
  · rintro rfl
    exact ofIndex?_of_lt o.index_lt

/-- The handles are just wide enough for the indices below the last 32-bit number. -/
theorem isSome_ofIndex? {i : Nat} : (ofIndex? i).isSome ↔ i < 0xFFFFFFFF := by
  by_cases hi : i < 0xFFFFFFFF
  · simp [ofIndex?_of_lt hi, hi]
  · simp [ofIndex?_of_le (by omega : 0xFFFFFFFF ≤ i), hi]

/-- A handle is stored as its index plus one. -/
@[simp] theorem toNat_encode_some (o : Handle) :
    (encode (some o)).toNat = o.index + 1 := by
  have := o.index_lt
  simp only [encode, UInt64.toNat_ofNat']
  omega

/-- A stored handle is a word of 32 bits. -/
theorem toNat_encode_lt (o : Option Handle) : (encode o).toNat < 0x100000000 := by
  cases o with
  | none => decide
  | some o =>
      have := o.index_lt
      rw [toNat_encode_some]
      omega

/-- What was encoded is decoded to what it was. -/
@[simp] theorem decode_encode (o : Option Handle) : decode (encode o) = o := by
  cases o with
  | none => rfl
  | some o =>
      have := o.index_lt
      have h : 0 < (encode (some o)).toNat ∧ (encode (some o)).toNat < 0x100000000 := by
        rw [toNat_encode_some]; omega
      rw [decode, dif_pos h]
      exact congrArg some (Handle.ext (by simp))

/-- A word of 32 bits is the encoding of what it is decoded to. -/
theorem encode_decode {w : UInt64} (h : w.toNat < 0x100000000) : encode (decode w) = w := by
  by_cases h0 : 0 < w.toNat
  · rw [decode, dif_pos ⟨h0, h⟩]
    apply UInt64.toNat_inj.mp
    rw [toNat_encode_some]
    show w.toNat - 1 + 1 = w.toNat
    omega
  · rw [decode, dif_neg (fun c => h0 c.1)]
    apply UInt64.toNat_inj.mp
    show 0 = w.toNat
    omega

/-- Larger words decode to nothing. -/
theorem decode_of_le {w : UInt64} (h : 0x100000000 ≤ w.toNat) : decode w = none :=
  dif_neg fun hw => Nat.not_lt.mpr h hw.2

/-- Different handles have different words. -/
theorem encode_injective : Function.Injective encode :=
  Function.LeftInverse.injective decode_encode

/-- Zero stands for no handle only. -/
theorem encode_some_ne_zero (o : Handle) : encode (some o) ≠ 0 := by
  intro h
  have hword := toNat_encode_some o
  rw [h] at hword
  cases hword

/-- The handle of slot `i` is what the word `i + 1` stands for. -/
theorem ofIndex?_toNat (i : UInt64) : ofIndex? i.toNat = decode (i + 1) := by
  have hi := i.toNat_lt
  have hsucc : (i + 1).toNat = (i.toNat + 1) % 2 ^ 64 := UInt64.toNat_add i 1
  by_cases h : i.toNat < 0xFFFFFFFF
  · have hword : i + 1 = encode (some ⟨i.toNat, h⟩) := by
      apply UInt64.toNat_inj.mp
      rw [toNat_encode_some, hsucc]
      show (i.toNat + 1) % 2 ^ 64 = i.toNat + 1
      omega
    rw [hword, decode_encode]
    exact ofIndex?_of_lt h
  · rw [ofIndex?_of_le (by omega), decode, dif_neg (by omega)]

end Handle

/-- A stored link word, which is always the word of a handle or of null. -/
structure Link where
  word : UInt64
  word_lt : word.toNat < 0x100000000
deriving DecidableEq

namespace Link

/-- A link is determined by its word. -/
@[ext] theorem ext {a b : Link} (h : a.word = b.word) : a = b := by
  cases a; cases b; simp_all

/-- The link that holds `o`. -/
def of (o : Option Handle) : Link := ⟨Handle.encode o, Handle.toNat_encode_lt o⟩

/-- The link that holds no handle. -/
def null : Link := of none

/-- The handle that a link holds. -/
def target (l : Link) : Option Handle := Handle.decode l.word

/-- A link leads where it was made to lead. -/
@[simp] theorem target_of (o : Option Handle) : (of o).target = o :=
  Handle.decode_encode o

/-- A link is determined by where it leads. -/
@[simp] theorem of_target (l : Link) : of l.target = l :=
  Link.ext (Handle.encode_decode l.word_lt)

/-- The null link leads nowhere. -/
@[simp] theorem target_null : null.target = none := target_of none

/-- Comparing words compares what they stand for. -/
theorem word_eq_encode_iff {l : Link} {o : Option Handle} :
    l.word = Handle.encode o ↔ l.target = o := by
  constructor
  · intro h
    rw [target, h, Handle.decode_encode]
  · rintro rfl
    exact (Handle.encode_decode l.word_lt).symm

end Link

end Referents
