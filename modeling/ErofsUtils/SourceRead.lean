import ErofsUtils.Dedupe
import ErofsUtils.SourceFile

/-!
# Reading the source files

Readers of `mkfs`: the ones that look for a fragment, the one that packs a whole file, and the ones
that take a file from a tar archive. A file may be shorter than the size that was recorded for it.
-/

namespace ErofsUtils

def eio : ℕ := 5
def einval : ℕ := 22

/-! ## Fragments -/

/-- `struct erofs_iostream` over a plain file: the bytes between `head` and `tail`, what the file
still holds, and the error, if any, that reading past it gives instead of the end of the file. -/
structure IoStream where
  buffer : List UInt8
  rest : List UInt8
  fault : Option ℕ
  feof : Bool
  bufsize : ℕ

def IoStream.ioRead (ios : IoStream) (n : ℕ) : Except ℕ (List UInt8) :=
  if n ≤ ios.rest.length then .ok (ios.rest.take n)
  else
    match ios.fault with
    | some e => .error e
    | none => .ok ios.rest

def intMax : ℕ := 2 ^ 31 - 1

def erofsIostreamRead (ios : IoStream) (bytes : ℕ) : Except ℕ (List UInt8) × IoStream :=
  let rabytes := ios.buffer.length
  if bytes ≤ rabytes then
    (.ok (ios.buffer.take bytes), { ios with buffer := ios.buffer.drop bytes })
  else
    let filled : Except ℕ IoStream :=
      if ios.feof then .ok ios
      else
        match ios.ioRead (ios.bufsize - rabytes) with
        | .error e => .error e
        | .ok got => .ok { ios with
            buffer := ios.buffer ++ got
            rest := ios.rest.drop got.length
            feof := got.length < ios.bufsize - rabytes }
    match filled with
    | .error e => (.error e, ios)
    | .ok ios =>
      let ret := min ios.buffer.length (min bytes intMax)
      (.ok (ios.buffer.take ret), { ios with buffer := ios.buffer.drop ret })

end ErofsUtils
