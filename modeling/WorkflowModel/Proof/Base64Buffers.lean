import WorkflowModel.Base64Module.Base64

/-!
# The buffers of the base64 module

`base64Encode` rounds down where the encoding rounds up. For a length of one more than a multiple of three the two
bytes of reserve are used up by the padding, and the NUL is written behind the buffer. `base64Decode` has room for as
many bytes as it is given. Both make their result of a C string, so a decoded NUL ends it.
-/

namespace WorkflowModel.Base64Module

open WorkflowModel

structure LibBase64.Sized (lib : LibBase64) : Prop where
  encode : ∀ s, (lib.base64Encode s).length = 4 * ((s.length + 2) / 3)
  decode : ∀ s, (lib.base64Decode s).length ≤ 3 * (s.length / 4) + 2

/-- libbase64 writes the padded standard encoding, and decodes it. -/
structure LibBase64.Standard (lib : LibBase64) : Prop where
  encode : ∀ s, lib.base64Encode s = Base64.encode s
  decode : ∀ s, lib.base64Decode (Base64.encode s) = s

def plainBase64 : LibBase64 where
  base64Encode := Base64.encode
  base64Decode := Base64.decode

theorem sized_plainBase64 : plainBase64.Sized :=
  ⟨Base64.length_encode, fun s => (Base64.length_decode_le s).trans (Nat.le_add_right ..)⟩

theorem standard_plainBase64 : plainBase64.Standard := ⟨fun _ => rfl, Base64.decode_encode⟩

theorem encodedSize_eq (n : Nat) : encodedSize n = n % 2 ^ 62 * 4 / 3 + 3 := by
  have hwrap : n * 4 % 2 ^ 64 = n % 2 ^ 62 * 4 := by omega
  have hthird : n % 2 ^ 62 * 4 / 3 < 2 ^ 63 := by omega
  unfold encodedSize sizeAdd sizeMul sizeModulus
  rw [hwrap]
  omega

theorem encoded_fits_iff (n : Nat) :
    4 * ((n + 2) / 3) < encodedSize n ↔ n % 3 ≠ 1 ∧ n < 2 ^ 62 := by
  rw [encodedSize_eq]
  by_cases hn : n < 2 ^ 62
  · rw [Nat.mod_eq_of_lt hn]
    omega
  · have hsmall : n % 2 ^ 62 + 2 ^ 62 ≤ n := by omega
    omega

theorem isSome_throughBuffer_iff (size : Nat) (written : Bytes) :
    (throughBuffer size written).isSome = true ↔ written.length < size := by
  rw [throughBuffer_eq]
  split_ifs with hsize
  · exact iff_of_true rfl hsize
  · exact iff_of_false Bool.false_ne_true hsize

theorem isSome_base64Encode_iff {lib : LibBase64} (hsized : lib.Sized) (s : Bytes) :
    (base64Encode lib s).isSome = true ↔ s.length % 3 ≠ 1 ∧ s.length < 2 ^ 62 := by
  rw [base64Encode, isSome_throughBuffer_iff, hsized.encode]
  exact encoded_fits_iff s.length

theorem isSome_base64Decode_iff (lib : LibBase64) {s : Bytes} (hs : s.length < 2 ^ 62) :
    (base64Decode lib s).isSome = true ↔ (lib.base64Decode s).length ≤ s.length := by
  rw [base64Decode, isSome_throughBuffer_iff, decodedSize, sizeAdd_of_lt (by unfold sizeModulus; omega)]
  exact Nat.lt_succ_iff

/-- Neither function writes outside of its buffer, whatever text of this length is encoded or decoded, and
whatever libbase64 writes within its sizes. -/
def BuffersSuffice (n : Nat) : Prop :=
  ∀ lib : LibBase64, lib.Sized → ∀ s : Bytes, s.length = n →
    (base64Encode lib s).isSome = true ∧ (base64Decode lib s).isSome = true

def greedyBase64 : LibBase64 where
  base64Encode := Base64.encode
  base64Decode s := List.replicate (3 * (s.length / 4) + 2) charNul

theorem sized_greedyBase64 : greedyBase64.Sized := ⟨Base64.length_encode, fun _ => List.length_replicate.le⟩

/-- The lengths of one more than a multiple of three are those that `base64Encode` has too little room for. The sizes
of libbase64 allow two bytes for the empty text, which `base64Decode` has no room for. -/
theorem buffersSuffice_iff (n : Nat) : BuffersSuffice n ↔ n % 3 ≠ 1 ∧ n ≠ 0 ∧ n < 2 ^ 62 := by
  constructor
  · intro h
    obtain ⟨hencode, hdecode⟩ := h greedyBase64 sized_greedyBase64 (List.replicate n 0) List.length_replicate
    have hfits := (isSome_base64Encode_iff sized_greedyBase64 _).mp hencode
    rw [List.length_replicate] at hfits
    refine ⟨hfits.1, ?_, hfits.2⟩
    rintro rfl
    exact absurd ((isSome_base64Decode_iff greedyBase64 (by decide)).mp hdecode) (by decide)
  · rintro ⟨hthird, hpos, hn⟩ lib hsized s rfl
    refine ⟨(isSome_base64Encode_iff hsized s).mpr ⟨hthird, hn⟩, ?_⟩
    have hdecode := hsized.decode s
    rw [isSome_base64Decode_iff lib hn]
    omega

/-- The four characters of one byte fill the buffer. -/
theorem not_buffersSuffice_one : ¬BuffersSuffice 1 := by
  intro h
  have hencode := (h plainBase64 sized_plainBase64 (bytesOf "a") rfl).1
  revert hencode
  decide

def RoundTrips (lib : LibBase64) (s : Bytes) : Prop := (base64Encode lib s).bind (base64Decode lib) = some s

section Standard

variable {lib : LibBase64}

theorem base64Encode_of_fits (hstandard : lib.Standard) {s : Bytes} (hfits : s.length % 3 ≠ 1 ∧ s.length < 2 ^ 62) :
    base64Encode lib s = some (Base64.encode s) := by
  have hsize := (encoded_fits_iff s.length).mpr hfits
  rw [base64Encode, throughBuffer_eq, hstandard.encode, Base64.length_encode, if_pos hsize,
    cString_of_not_mem (Base64.zero_notMem_encode s)]

theorem base64Encode_of_not_fits (hstandard : lib.Standard) {s : Bytes}
    (hfits : ¬(s.length % 3 ≠ 1 ∧ s.length < 2 ^ 62)) : base64Encode lib s = none := by
  rw [base64Encode, throughBuffer_eq, hstandard.encode, Base64.length_encode,
    if_neg (mt (encoded_fits_iff s.length).mp hfits)]

theorem base64Decode_encode (hstandard : lib.Standard) {s : Bytes} (hs : s.length < 2 ^ 62) :
    base64Decode lib (Base64.encode s) = some (cString s) := by
  have hsize : s.length < decodedSize (Base64.encode s).length := by
    rw [Base64.length_encode, decodedSize, sizeAdd_of_lt (by unfold sizeModulus; omega)]
    omega
  rw [base64Decode, throughBuffer_eq, hstandard.decode, if_pos hsize]

/-- A text comes back exactly when it has no NUL and its encoding fits into the buffer with its end. -/
theorem roundTrips_iff (hstandard : lib.Standard) (s : Bytes) :
    RoundTrips lib s ↔ charNul ∉ s ∧ s.length % 3 ≠ 1 ∧ s.length < 2 ^ 62 := by
  unfold RoundTrips
  by_cases hfits : s.length % 3 ≠ 1 ∧ s.length < 2 ^ 62
  · rw [base64Encode_of_fits hstandard hfits, Option.bind_some, base64Decode_encode hstandard hfits.2,
      Option.some.injEq]
    constructor
    · intro heq
      rw [← heq]
      exact ⟨charNul_notMem_cString s, by rw [heq]; exact hfits⟩
    · exact fun h => cString_of_not_mem h.1
  · rw [base64Encode_of_not_fits hstandard hfits]
    exact iff_of_false nofun fun h => hfits h.2

theorem roundTrips_plainBase64 : RoundTrips plainBase64 (bytesOf "base64") :=
  (roundTrips_iff standard_plainBase64 _).mpr (by decide)

/-- Behind the NUL nothing comes back. -/
theorem not_roundTrips_nul :
    plainBase64.Standard ∧ ¬RoundTrips plainBase64 (bytesOf "a" ++ [charNul]) := by
  refine ⟨standard_plainBase64, ?_⟩
  unfold RoundTrips
  decide

end Standard

end WorkflowModel.Base64Module
