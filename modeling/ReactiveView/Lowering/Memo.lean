import ReactiveView.Digest.Sha256
import ReactiveView.Json.Writer
import ReactiveView.Lowering.Codec

/-!
# Remembered outputs

Lowering gives the same output for the same module and options, so outputs can be kept under a key
made of both.  The key is a digest of their texts with a zero byte between them.
-/

namespace ReactiveView

def Json.bytes (v : Json) : List UInt8 := v.compact.toUTF8.toList

def Module.key (m : Module) (options : Options) : String :=
  Sha256.hexDigest (m.encode.bytes ++ 0 :: options.encode.bytes)

structure Memo where
  entries : List (String × ModuleOutcome) := []

namespace Memo

def get? (memo : Memo) (m : Module) (options : Options) : Option ModuleOutcome :=
  memo.entries.lookup (m.key options)

def getOrLower (memo : Memo) (m : Module) (options : Options)
    (parser : Script.Parser := Script.parser) : ModuleOutcome × Memo :=
  match memo.get? m options with
  | some output => (output, memo)
  | none =>
    let output := m.lower options parser
    (output, ⟨(m.key options, output) :: memo.entries⟩)

def size (memo : Memo) : Nat := memo.entries.length

end Memo

end ReactiveView
