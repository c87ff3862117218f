import Mathlib.Data.List.Basic

/-! Frames with a 32-bit little-endian length before the payload, and a reader that
takes one frame off a stream and refuses lengths over a limit. -/

namespace Sharko.Library.Framing

def toLe32 (n : Nat) : List UInt8 :=
  [UInt8.ofNat n,UInt8.ofNat (n / 256),UInt8.ofNat (n / 65536),UInt8.ofNat (n / 16777216)]

def fromLe32 (a b c d : UInt8) : Nat := a.toNat + 256 * b.toNat + 65536 * c.toNat + 16777216 * d.toNat

def frame (payload : List UInt8) : List UInt8 := toLe32 payload.length ++ payload

def readFrame (limit : Nat) : List UInt8 → Option (List UInt8 × List UInt8)
  | a :: b :: c :: d :: rest =>
    let len := fromLe32 a b c d
    if limit < len then none
    else if rest.length < len then none
    else some (rest.take len,rest.drop len)
  | _ => none

theorem fromLe32_toLe32 {n : Nat} (small : n < 4294967296) :
    fromLe32 (UInt8.ofNat n) (UInt8.ofNat (n / 256)) (UInt8.ofNat (n / 65536))
      (UInt8.ofNat (n / 16777216)) = n := by
  simp only [fromLe32,UInt8.toNat_ofNat']
  omega

theorem readFrame_frame {limit : Nat} {payload : List UInt8} (rest : List UInt8)
    (small : payload.length < 4294967296) : readFrame limit (frame payload ++ rest) =
      if limit < payload.length then none else some (payload,rest) := by
  have header := fromLe32_toLe32 small
  simp only [frame,toLe32,List.cons_append,List.nil_append,readFrame,header]
  split_ifs with isOver' short
  · rfl
  · rw [List.length_append] at short
    exact absurd (Nat.le_add_right _ _) (Nat.not_le_of_lt short)
  · simp

theorem frame_nonempty (payload : List UInt8) : frame payload ≠ [] := by
  simp [frame,toLe32]

end Sharko.Library.Framing
