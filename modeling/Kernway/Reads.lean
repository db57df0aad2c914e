import Kernway.Utf8

namespace Kernway

/-- What a `read` of a connection gives. The list of them ends where a read gives nothing more: at
the end of the stream, an error, a timeout, or the shutdown of an idle connection. -/
abbrev Chunk := {bytes : Bytes // bytes ≠ []}

def received (reads : List Chunk) : Bytes := (reads.map Subtype.val).flatten

theorem received_cons (chunk : Chunk) (reads : List Chunk) :
    received (chunk :: reads) = chunk.val ++ received reads := rfl

theorem append_received_cons (buf : Bytes) (chunk : Chunk) (reads : List Chunk) :
    buf ++ received (chunk :: reads) = buf ++ chunk.val ++ received reads := by
  rw [received_cons, List.append_assoc]

theorem exists_received (bytes : Bytes) : ∃ reads, received reads = bytes := by
  by_cases h : bytes = []
  · exact ⟨[], h.symm⟩
  · exact ⟨[⟨bytes, h⟩], List.append_nil bytes⟩

end Kernway
