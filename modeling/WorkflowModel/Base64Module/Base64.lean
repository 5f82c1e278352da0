import WorkflowModel.CString
import WorkflowModel.Lib.Base64
import WorkflowModel.Lib.Block

/-!
# The base64 module

`base64Encode` and `base64Decode` let libbase64 write into a buffer of their own, put a NUL behind what was
written and make a `std::string` of the buffer. The constructor of the string takes a C string, so it ends at the
first NUL. A write that does not fit into the buffer has no result. Memory is not exhausted.
-/

namespace WorkflowModel.Base64Module

open WorkflowModel

/-- libbase64: the bytes that `base64_encode` and `base64_decode` write to `out`, whose number they store in
`*outlen`. The codec is chosen by the flags, which are 0. -/
structure LibBase64 where
  base64Encode : Bytes → Bytes
  base64Decode : Bytes → Bytes

/-- `std::string result(text)`: the bytes up to the first NUL. A byte that was not written is not read. -/
def stringOf : Block UInt8 → Option Bytes
  | [] => none
  | none :: _ => none
  | some c :: rest => if c = charNul then some [] else (stringOf rest).map (c :: ·)

/-- What both functions do with a buffer of this size: the library writes, the NUL goes behind what it has
written, and the buffer becomes a string. -/
def throughBuffer (size : Nat) (written : Bytes) : Option Bytes := do
  let buf ← (Block.alloc size).write 0 written
  let buf ← buf.write written.length [charNul]
  stringOf buf

/-- `encoded_len + 1` with the first value of `encoded_len`. -/
def encodedSize (length : Nat) : Nat := sizeAdd (sizeAdd (sizeMul length 4 / 3) 2) 1

/-- `decoded_len + 1`. -/
def decodedSize (length : Nat) : Nat := sizeAdd length 1

def base64Encode (lib : LibBase64) (input : Bytes) : Option Bytes :=
  throughBuffer (encodedSize input.length) (lib.base64Encode input)

def base64Decode (lib : LibBase64) (input : Bytes) : Option Bytes :=
  throughBuffer (decodedSize input.length) (lib.base64Decode input)

/-- The string is read off a block that begins with a text and a NUL. -/
theorem stringOf_of_holds {text : Bytes} : ∀ {buf : Block UInt8}, buf.Holds (text ++ [charNul]) →
    stringOf buf = some (cString text) := by
  induction text with
  | nil =>
      intro buf h
      match buf, h with
      | [], h => cases h
      | cell :: rest, h =>
          obtain rfl : cell = some charNul := (List.cons.inj h).1
          rfl
  | cons c text ih =>
      intro buf h
      match buf, h with
      | [], h => cases h
      | cell :: rest, h =>
          obtain ⟨rfl, hrest⟩ := List.cons.inj h
          by_cases hc : c = charNul
          · rw [stringOf, if_pos hc, hc, cString_nul]
          · rw [stringOf, if_neg hc, ih hrest, cString_cons hc]
            rfl

/-- The NUL has to fit as well. What comes out ends at the first NUL that was written. -/
theorem throughBuffer_eq (size : Nat) (written : Bytes) :
    throughBuffer size written = if written.length < size then some (cString written) else none := by
  unfold throughBuffer
  split_ifs with hsize
  · obtain ⟨buf, hwrite, hholds, hlength, -⟩ :=
      (Block.holds_nil (Block.alloc size)).write written (by simp; omega)
    obtain ⟨buf', hwrite', hholds', -, -⟩ :=
      hholds.write [charNul] (by rw [hlength]; simp; omega)
    rw [List.length_nil] at hwrite
    rw [List.nil_append] at hwrite' hholds'
    rw [hwrite, Option.bind_eq_bind, Option.bind_some, hwrite', Option.bind_some]
    exact stringOf_of_holds hholds'
  · cases hwrite : (Block.alloc size : Block UInt8).write 0 written with
    | none => rfl
    | some buf =>
        have hlength := Block.length_write hwrite
        rw [Block.length_alloc] at hlength
        have hnone : buf.write written.length [charNul] = none := if_neg (by simp [hlength]; omega)
        rw [Option.bind_eq_bind, Option.bind_some, hnone]
        rfl

end WorkflowModel.Base64Module
