import CodexMemory.Hooks.Redaction

/-!
# `scan_security` of `pipelines/v131_import.py`

The injection patterns, of which one has to occur, and the secret patterns, which
are replaced one after another.
-/

namespace CodexMemory.Import

open Hooks (WordTable literal oneOf tokenChar credentialChar)
open Regex

/-- Up to `n` characters of a class. -/
def upTo (p : Char → Bool) : Nat → Regex
  | 0 => .many (fun _ => false) 0
  | n + 1 => .opt (.seq (.char p) (upTo p n))

/-- One of several expressions, the first preferred. -/
def anyOf (r : Regex) : List Regex → Regex
  | [] => r
  | s :: rest => .alt r (anyOf s rest)

/-- `.` -/
def notNewline (c : Char) : Bool := c != '\n'

section

variable (table : WordTable)

/-- `\b(ignore|disregard|override)\s+(all\s+)?(previous|prior)\s+instructions?` -/
def overridePattern : Regex :=
  .seq (.boundary table.word) (.seq (anyOf (literal "ignore") [literal "disregard", literal "override"])
    (.seq (.many isSpace 1) (.seq (.opt (.seq (literal "all") (.many isSpace 1)))
      (.seq (.alt (literal "previous") (literal "prior")) (.seq (.many isSpace 1)
        (.seq (literal "instruction") (.opt (literal "s"))))))))

/-- `\b(system prompt|developer message|assistant instructions?)\b` -/
def promptPattern : Regex :=
  .seq (.boundary table.word) (.seq (anyOf (literal "system prompt") [literal "developer message",
    .seq (literal "assistant instruction") (.opt (literal "s"))]) (.boundary table.word))

/-- `(忽略|无视|覆盖).{0,12}(之前|上文|系统).{0,12}(指令|提示|规则)` -/
def overrideWords : Regex :=
  .seq (anyOf (literal "忽略") [literal "无视", literal "覆盖"]) (.seq (upTo notNewline 12)
    (.seq (anyOf (literal "之前") [literal "上文", literal "系统"]) (.seq (upTo notNewline 12)
      (anyOf (literal "指令") [literal "提示", literal "规则"]))))

/-- `_PROMPT_INJECTION_PATTERNS` -/
def promptInjectionPatterns : List Regex := [overridePattern table, promptPattern table, overrideWords]

/-- `\bsk-[A-Za-z0-9_-]{16,}\b` -/
def keyPattern : Regex :=
  .seq (.boundary table.word) (.seq (literal "sk-") (.seq (.many (tokenChar "_-") 16) (.boundary table.word)))

/-- `\b(api[_-]?key|authorization|password|secret|token)\s*[:=]\s*[^\s,;]+` -/
def fieldPattern : Regex :=
  .seq (.boundary table.word) (.seq (anyOf (.seq (literal "api") (.seq (.opt (oneOf "_-")) (literal "key")))
      [literal "authorization", literal "password", literal "secret", literal "token"])
    (.seq (.many isSpace 0) (.seq (oneOf ":=") (.seq (.many isSpace 0) (.many credentialChar 1)))))

/-- A literal without `(?i)`. -/
def exactly (text : String) : Regex := literals id text.toList

/-- `-----BEGIN (?:RSA |EC |OPENSSH )?PRIVATE KEY-----[\s\S]+?-----END [^-]+-----` -/
def pemPattern : Regex :=
  .seq (exactly "-----BEGIN ") (.seq (.opt (anyOf (exactly "RSA ") [exactly "EC ", exactly "OPENSSH "]))
    (.seq (exactly "PRIVATE KEY-----") (.seq (.lazily (fun _ => true) 1) (.seq (exactly "-----END ")
      (.seq (.many (· != '-') 1) (exactly "-----"))))))

/-- `_SECRET_PATTERNS` -/
def secretPatterns : List Regex := [keyPattern table, fieldPattern table, pemPattern]

/-- What stands in the place of a secret. -/
def desensitized : List Char := "[已脱敏]".toList

/-- One of the injection patterns occurs in the text. -/
def injected (text : List Char) : Bool := (promptInjectionPatterns table).any fun r => r.search none text

/-- The text with one pattern replaced, and whether it occurred. -/
def redactStep (s : Bool × List Char) (r : Regex) : Bool × List Char :=
  if r.search none s.2 then (true, (Pattern.whole r).sub desensitized s.2) else s

/-- `scan_security`: the issues in order, and the text without its secrets. -/
def scanSecurity (text : List Char) : List String × List Char :=
  let redacted := (secretPatterns table).foldl redactStep (false, text)
  ((if injected table text then ["prompt_injection"] else []) ++
    (if redacted.1 then ["sensitive_credential"] else []), redacted.2)

theorem injection_reported (text : List Char) :
    "prompt_injection" ∈ (scanSecurity table text).1 ↔ injected table text = true := by
  rw [scanSecurity]
  cases injected table text with
  | true => simp
  | false => cases ((secretPatterns table).foldl redactStep (false, text)).1 <;> simp

end

end CodexMemory.Import
