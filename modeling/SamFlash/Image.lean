import SamFlash.Link

/-!
# Reading the image

The image comes in pieces of whatever size its source likes. A page is read piece by piece until it
is full, the image has given all the bytes that were promised, or the source is at its end.

Results:
* `Image.padded_length`: a padded page is a full page.
* `Image.padded_of_full`: a full page is not changed by padding.
-/

namespace SamFlash.Image

variable {ε : Type}

/-- Reads up to `space` bytes, but no more than `limit`. -/
def read (space limit : Nat) : Link ε (List UInt8) :=
  if _h : space = 0 ∨ limit = 0 then pure []
  else
    ExceptT.mk (.ask (.image (min space limit)) fun delivery =>
      match delivery.settle with
      | .error kind => .done (.error (.error (.io kind)))
      | .ok ⟨data, _⟩ =>
        if _hd : data = [] then .done (.ok [])
        else (read (space - data.length) (limit - data.length)).run.bind fun rest =>
          .done (rest.map (data ++ ·)))
termination_by space
decreasing_by
  have : 0 < data.length := List.length_pos_iff.mpr _hd
  omega

/-- The bytes of a page, filled up with zeros. -/
def padded (pageSize : Nat) (data : List UInt8) : List UInt8 :=
  data ++ List.replicate (pageSize - data.length) 0

theorem padded_length {pageSize : Nat} {data : List UInt8} (h : data.length ≤ pageSize) :
    (padded pageSize data).length = pageSize := by
  simp only [padded, List.length_append, List.length_replicate]
  omega

theorem padded_of_full (data : List UInt8) : padded data.length data = data := by
  simp [padded]

end SamFlash.Image
