import WorkflowModel.CString

/-!
# The default ports

`__WFGlobal` knows the port of a scheme from a table of its own, and behind that from the ports that a
program has registered. Both give a text: the table holds the texts, and a registered port is an
`unsigned short` that goes through `std::to_string`.
-/

namespace WorkflowModel.Manager

open WorkflowModel

def staticSchemePort : List (Bytes × Bytes) :=
  [(bytesOf "http", bytesOf "80"), (bytesOf "https", bytesOf "443"),
    (bytesOf "redis", bytesOf "6379"), (bytesOf "rediss", bytesOf "6379"),
    (bytesOf "mysql", bytesOf "3306"), (bytesOf "kafka", bytesOf "9092")]

/-- `user_scheme_port_`, with what `std::to_string` can have written into it. -/
structure SchemePorts where
  userSchemePort : Bytes → Option Bytes
  written : ∀ scheme text, userSchemePort scheme = some text →
    ∃ port : UInt16, text = decimal port.toNat

def SchemePorts.empty : SchemePorts where
  userSchemePort _ := none
  written _ _ h := nomatch h

def SchemePorts.registerSchemePort (ports : SchemePorts) (scheme : Bytes) (port : UInt16) :
    SchemePorts where
  userSchemePort := fun other =>
    if other = scheme then some (decimal port.toNat) else ports.userSchemePort other
  written := by
    intro other text h
    split_ifs at h
    · exact ⟨port, (Option.some.inj h).symm⟩
    · exact ports.written other text h

def SchemePorts.getDefaultPort (ports : SchemePorts) (scheme : Bytes) : Option Bytes :=
  (staticSchemePort.lookup scheme).or (ports.userSchemePort scheme)

theorem SchemePorts.getDefaultPort_registerSchemePort (ports : SchemePorts) (scheme other : Bytes)
    (port : UInt16) :
    (ports.registerSchemePort scheme port).getDefaultPort other =
      if other = scheme then (staticSchemePort.lookup scheme).or (some (decimal port.toNat))
      else ports.getDefaultPort other := by
  split_ifs with hsame
  · rw [hsame, getDefaultPort]
    apply congrArg
    exact if_pos rfl
  · apply congrArg (staticSchemePort.lookup other).or
    exact if_neg hsame

end WorkflowModel.Manager
