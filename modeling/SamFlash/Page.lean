import SamFlash.Applet
import SamFlash.FlashController.Access
import SamFlash.Image
import SamFlash.Staging

/-!
# Writing pages

A page is stored in a staging buffer, the applet's addresses are set, and only when every plane is
ready does the applet copy the page into the flash latch and the controller of its plane erase and
write it. The next page goes to the other buffer, so it can be stored while the controller works.
-/

namespace SamFlash

/-- What is on the target while pages are written. -/
structure Workspace where
  applet : Applet
  buffers : Staging
  deriving DecidableEq, Repr

namespace Workspace

variable {ε : Type}

/-- Sets the programming mode of `left` planes from `plane` on. -/
def prepareFrom (c : Chip) : (left plane : Nat) → Link ε Unit
  | 0, _ => pure ()
  | left + 1, plane => do
    FlashController.writeRegister c plane FlashController.modeOffset
      FlashController.programmingMode
    prepareFrom c left (plane + 1)

/-- Loads the applet, sets what stays the same for all pages, and lays out the staging buffers
behind the applet. -/
def setUp (c : Chip) : Link ε Workspace := do
  let applet ← Applet.load c.ramUserBase
  applet.setWords (Word.ofSize (c.pageSize / 4))
  applet.setStack c.ramStackTop
  prepareFrom c c.planes 0
  let behind ← Link.exact (Word.add applet.base Applet.size)
  let buffers ← Link.exact (Staging.ofBase behind c.pageSize)
  return ⟨applet, buffers⟩

end Workspace

namespace Page

variable {ε : Type}

/-- Writes the bytes of a page; gives the workspace for the next page. -/
def write (o : Options) (c : Chip) (w : Workspace) (page : Nat) (data : List UInt8) :
    Link ε Workspace := do
  if c.pages ≤ page then Link.fail (.pageOutOfRange page c.pages)
  else
    let buffer := w.buffers.current
    let addr ← Link.exact (c.pageAddress page)
    Link.log (.pageStaged page addr buffer)
    Monitor.writeBlock buffer data
    w.applet.setDestination addr
    w.applet.setSource buffer
    FlashController.awaitReady o c (.page page)
    w.applet.run
    let (plane, arg) ← Link.exact (c.planeForPage page)
    FlashController.command c plane .eraseWritePage (Word.ofSize arg)
    return { w with buffers := w.buffers.swap }

/-- Tells whoever watches. -/
def tell (observed : Bool) (p : Progress) : Link ε Unit := do
  if observed then Link.request (.progress p)

/-- The bytes of the next page, of an image of `size` bytes of which `read` have been taken: the
number taken after it, and the page filled up with zeros. Only the last page may be short. -/
def next (c : Chip) (size page read : Nat) : Link ε (Nat × List UInt8) := do
  let data ← Image.read c.pageSize (size - read)
  let read ← Link.exact (Size.add read data.length)
  if data.length < c.pageSize ∧ read < size then
    Link.log (.imageEnded read size)
    Link.fail (.io .unexpectedEof)
  else
    if data.length < c.pageSize then
      let missing ← Link.exact (Size.sub c.pageSize data.length)
      Link.log (.padding page missing)
    return (read, Image.padded c.pageSize data)

/-- Writes `left` pages from `page` on, of an image of `size` bytes of which `read` have been
taken. -/
def writeAll (o : Options) (c : Chip) (size : Nat) (observed : Bool) :
    (left page read : Nat) → Workspace → Link ε Unit
  | 0, _, _, _ => pure ()
  | left + 1, page, read, w => do
    let (read, data) ← next c size page read
    let w ← Link.during (.page page) (write o c w page data)
    let done ← Link.exact (Size.add page 1)
    tell observed (.advance done)
    writeAll o c size observed left (page + 1) read w

end Page

end SamFlash
