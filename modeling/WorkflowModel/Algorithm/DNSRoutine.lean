import WorkflowModel.CString

/-!
# The resolution of a host

`DNSRoutine::run` asks `getaddrinfo`, but for a host that begins with a slash: this is the path of a Unix
socket, and its address is made on the spot. The path is copied into the 108 bytes of `sun_path` by `strcpy`.
A copy that does not fit writes behind the address; here it has no result.

A list of addresses has the bytes of each address and is empty where the source has a null pointer.
-/

namespace WorkflowModel.Algorithm

open WorkflowModel

structure DNSInput where
  host : Bytes
  port : Nat
  deriving DecidableEq, Repr

structure DNSOutput where
  error : Int
  addrinfo : List Bytes
  deriving DecidableEq, Repr

namespace DNSRoutine

/-- `sizeof (sun->sun_path)`. -/
def sunPathSize : Nat := 108

/-- `AF_UNIX` in the two bytes of `sun_family`. -/
def afUnix : Bytes := [1, 0]

def portStrMax : Nat := 5

/-- The bytes that `strcpy` copies from `host_.c_str()`. -/
def copied (host : Bytes) : Bytes := cString host ++ [charNul]

/-- `strcpy` to the beginning of `dest`. -/
def strcpy (dest host : Bytes) : Option Bytes :=
  if (copied host).length ≤ dest.length then some (copied host ++ dest.drop (copied host).length) else none

def run (getaddrinfo : Bytes → Bytes → Int × List Bytes) (input : DNSInput) : Option DNSOutput :=
  if input.host ≠ [] ∧ input.host.headD charNul = 47 then do
    let path ← strcpy (List.replicate sunPathSize charNul) input.host
    return { error := 0, addrinfo := [afUnix ++ path] }
  else
    let portStr := (decimal input.port).take portStrMax
    let result := getaddrinfo (cString input.host) portStr
    some { error := result.1, addrinfo := result.2 }

theorem strcpy_isSome_iff (dest host : Bytes) :
    (strcpy dest host).isSome = true ↔ (copied host).length ≤ dest.length := by
  unfold strcpy
  split_ifs with hfits
  · exact iff_of_true rfl hfits
  · exact iff_of_false Bool.false_ne_true hfits

/-- The host of a Unix socket is resolved exactly when its copy fits. -/
theorem run_isSome_iff (getaddrinfo : Bytes → Bytes → Int × List Bytes) {input : DNSInput}
    (hslash : input.host.head? = some 47) :
    (run getaddrinfo input).isSome = true ↔ (copied input.host).length ≤ sunPathSize := by
  have hunix : input.host ≠ [] ∧ input.host.headD charNul = 47 := by
    match hhost : input.host with
    | [] =>
        rw [hhost] at hslash
        cases hslash
    | c :: rest =>
        rw [hhost] at hslash
        exact ⟨List.cons_ne_nil c rest, Option.some.inj hslash⟩
  have hfits := strcpy_isSome_iff (List.replicate sunPathSize charNul) input.host
  rw [List.length_replicate] at hfits
  rw [← hfits]
  unfold run
  rw [if_pos hunix]
  cases strcpy (List.replicate sunPathSize charNul) input.host <;> rfl

end DNSRoutine

end WorkflowModel.Algorithm
