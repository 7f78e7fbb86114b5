import Nachos.Machine.Machine

/-!
# Machine — HostFile

The bytes of a file of the host, as `read` and `write` (machine/sysdep.cc) see them at a position.
What is written is read again at its place, and the rest of the file stays.
-/

namespace Nachos.Syscall

/-- `ReadPartial`, behind a `Lseek`: what `read` finds in a file. -/
def readPartial (content : List Byte) (off numBytes : Nat) : List Byte :=
  (content.drop off).take numBytes

/-- `WriteFile`, behind a `Lseek`: a gap is filled with zeros, but not for nothing. -/
def writeFile (content : List Byte) (off : Nat) (bytes : List Byte) : List Byte :=
  if bytes = [] then content
  else content.take off ++ List.replicate (off - content.length) 0 ++ bytes ++
    content.drop (off + bytes.length)

section
variable {content bytes : List Byte} {off i x : Nat}

theorem length_gap : (content.take off ++ List.replicate (off - content.length) (0 : Byte)).length =
    off := by
  rw [List.length_append, List.length_take, List.length_replicate]
  omega

/-- A file that ends before the place of a write ends where the write ends, or before. -/
theorem length_writeFile_le (h : content.length ≤ off) :
    (writeFile content off bytes).length ≤ off + bytes.length := by
  rw [writeFile]
  split
  · omega
  · rw [List.length_append, List.length_append, length_gap, List.length_drop]
    omega

/-- A write to the end of a file appends. -/
theorem writeFile_end : writeFile content content.length bytes = content ++ bytes := by
  rw [writeFile]
  split
  · rename_i h
    rw [h, List.append_nil]
  · rw [List.take_length, Nat.sub_self, List.drop_of_length_le (Nat.le_add_right _ _),
      List.replicate_zero, List.append_nil, List.append_nil]

/-- What is written is in the file. -/
theorem getElem?_writeFile_inside (hi : i < bytes.length) :
    (writeFile content off bytes)[off + i]? = bytes[i]? := by
  rw [writeFile, if_neg (List.ne_nil_of_length_pos (by omega)), List.append_assoc,
    List.getElem?_append_right (by rw [length_gap]; omega), length_gap, Nat.add_sub_cancel_left,
    List.getElem?_append_left hi]

/-- The rest of the file is as it was. -/
theorem getElem?_writeFile_outside (hx : x < content.length)
    (h : x < off ∨ off + bytes.length ≤ x) : (writeFile content off bytes)[x]? = content[x]? := by
  rw [writeFile]
  split
  · rfl
  · rw [List.append_assoc]
    rcases h with h | h
    · rw [List.getElem?_append_left (by rw [length_gap]; exact h),
        List.getElem?_append_left (by rw [List.length_take]; omega), List.getElem?_take_of_lt h]
    · rw [List.getElem?_append_right (by rw [length_gap]; omega), length_gap,
        List.getElem?_append_right (by omega), List.getElem?_drop]
      congr 1
      omega

end

end Nachos.Syscall
