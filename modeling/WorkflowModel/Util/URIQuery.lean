import WorkflowModel.Util.StringUtil
import WorkflowModel.Lib.Multimap

/-!
# The splitters of queries

A query is split at `&`, and each piece at `=`. A `std::map` is what it gives for each key.
-/

namespace WorkflowModel.Util.URIParser

open StringUtil

def charAmp : UInt8 := 38
def charEqual : UInt8 := 61

/-- One round of the loop of `split_query_strict`, for the piece `ele`. -/
def strictRound (res : Bytes → Option (List Bytes)) (ele : Bytes) : Bytes → Option (List Bytes) :=
  if ele = [] then res
  else
    let kv := split charEqual ele
    let key := kv.getD 0 []
    if key = [] then res
    else if kv.length = 1 then Multimap.push key [] res
    else
      let val := kv.getD 1 []
      if val = [] then Multimap.push key [] res else Multimap.push key val res

def splitQueryStrict (query : Bytes) : Bytes → Option (List Bytes) :=
  if query = [] then fun _ => none
  else
    let arr := split charAmp query
    if arr = [] then fun _ => none else arr.foldl strictRound fun _ => none

/-- One round of the loop of `split_query`. -/
def firstRound (res : Bytes → Option Bytes) (ele : Bytes) : Bytes → Option Bytes :=
  if ele = [] then res
  else
    let kv := split charEqual ele
    let key := kv.getD 0 []
    if key = [] ∨ (res key).isSome = true then res
    else if kv.length = 1 then Function.update res key (some [])
    else
      let val := kv.getD 1 []
      if val = [] then Function.update res key (some []) else Function.update res key (some val)

def splitQuery (query : Bytes) : Bytes → Option Bytes :=
  if query = [] then fun _ => none
  else
    let arr := split charAmp query
    if arr = [] then fun _ => none else arr.foldl firstRound fun _ => none

end WorkflowModel.Util.URIParser
