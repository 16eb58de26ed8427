/-!
# Readers

A reader delivers bytes into a buffer of some capacity, at most as many as fit. A read may also be
interrupted, to be tried again, or fail for good; a read of no bytes is the end. `Script` is a
reader that plays a list of events, and gives what does not fit into the buffer at the next read.
-/

namespace PegStream

/-- What a reader does next. -/
inductive ReadEvent where
  /-- Some bytes arrive; none is the end. -/
  | data (bytes : List UInt8)
  | interrupted
  | failed (message : String)

/-- The outcome of one read. -/
inductive ReadResult where
  /-- The bytes put into the buffer; none is the end. -/
  | bytes (bytes : List UInt8)
  | interrupted
  | failed (message : String)

/-- The events still to come; after the last one the reader is at its end. -/
abbrev Script := List ReadEvent

namespace Script

/-- Reads once into a buffer of the given capacity. -/
def read (capacity : Nat) : Script → ReadResult × Script
  | [] => (.bytes [], [])
  | .data bytes :: rest =>
    (.bytes (bytes.take capacity),
      match bytes.drop capacity with
      | [] => rest
      | more => .data more :: rest)
  | .interrupted :: rest => (.interrupted, rest)
  | .failed message :: rest => (.failed message, rest)

/-- The number of events and bytes to come. -/
def size : Script → Nat
  | [] => 0
  | .data bytes :: rest => bytes.length + 1 + size rest
  | .interrupted :: rest | .failed _ :: rest => 1 + size rest

/-- A read that is not the end uses up some of the script. -/
theorem size_read_lt {capacity : Nat} (pos : 0 < capacity) {script : Script} {r : ReadResult}
    {rest : Script} (h : script.read capacity = (r, rest)) (more : r ≠ .bytes []) :
    size rest < size script := by
  match script with
  | [] => simp_all [read]
  | .data bytes :: events =>
    simp only [read, Prod.mk.injEq] at h
    obtain ⟨_, rfl⟩ := h
    split
    · simp only [size]
      omega
    · rename_i left
      have : 0 < (bytes.drop capacity).length := List.length_pos_iff.2 left
      rw [List.length_drop] at this
      simp only [size, List.length_drop]
      omega
  | .interrupted :: events => cases h; simp [size]
  | .failed _ :: events => cases h; simp [size]

end Script

end PegStream
