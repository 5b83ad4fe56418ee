import PennCloud.Library.CppString
import PennCloud.KV.TabletCells

/-!
# Tokens of a header line

`get_token` of the common utilities is meant to cut the token that starts at `stt` out of a
line and to report where it ends. The cut is guarded by the local switch `function_debug`,
which is off, so the position is right and the token is always empty.
-/

open PennCloud.Library.CppString PennCloud.KV.TabletCells

namespace PennCloud.Common.Token

/-- The blank characters that end a token. -/
def blanks : Bytes := lit " \r\n"

/-- `get_token(line, stt, &gap)`: the returned string and the value stored in `gap`. -/
def getToken (line : Bytes) (stt : ℕ) : Except StdException (Bytes × ℤ) := do
  let functionDebug := false
  let nextWs := findFirstOf line blanks stt
  let gap := sizeToInt nextWs
  let substrSize := (nextWs + 2 ^ 64 - stt) % 2 ^ 64
  let out ← if functionDebug then substr line stt substrSize else pure []
  return (out, gap)

/-- The token is empty whatever the line. -/
theorem getToken_eq (line : Bytes) (stt : ℕ) :
    getToken line stt = .ok ([], sizeToInt (findFirstOf line blanks stt)) := rfl

/-- It therefore differs from every keyword a reader compares it with. -/
theorem getToken_ne_ok {line keyword : Bytes} (stt : ℕ) (gap : ℤ) (h : keyword ≠ []) :
    getToken line stt ≠ .ok (keyword, gap) := by
  intro htoken
  simp only [getToken_eq, Except.ok.injEq, Prod.mk.injEq] at htoken
  exact h htoken.1.symm

end PennCloud.Common.Token
