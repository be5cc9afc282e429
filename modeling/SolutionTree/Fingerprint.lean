import SolutionTree.Sha256

/-!
Fingerprints: the digest of a stream of bytes in which every part can be told from
the next.

A text goes into the stream as its UTF-8 bytes and one zero byte; an optional text
has a byte in front that says whether it is there. The stream is kept apart from the
digest, so that what two equal streams have in common can be said without the
digest.
-/

namespace SolutionTree.Fingerprint

/-- The bytes of a text and the zero byte that ends it. -/
def ofText (s : String) : List UInt8 :=
  s.toUTF8.toList ++ [0]

/-- The bytes of some texts, one after another. -/
def ofTexts (ss : List String) : List UInt8 :=
  ss.flatMap ofText

def ofOption : Option String → List UInt8
  | none => [0]
  | some s => 1 :: ofText s

def finish (stream : List UInt8) : String :=
  Sha256.hexDigest stream

@[simp] theorem ofTexts_nil : ofTexts [] = [] := rfl

@[simp] theorem ofTexts_cons (s : String) (ss : List String) :
    ofTexts (s :: ss) = ofText s ++ ofTexts ss := rfl

end SolutionTree.Fingerprint
