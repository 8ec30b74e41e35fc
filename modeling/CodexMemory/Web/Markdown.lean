import CodexMemory.Html
import CodexMemory.Replacing

/-!
# `renderSafeMarkdown` of `markdown.js`

The console shows stored texts as markup.  The renderer escapes each line, puts tags in
with three replacements one after another, and keeps track of whether it is in a fenced
code block or in a list.

* `render_blocks`: what it writes is a sequence of whole blocks, whatever the lines are;
* `inline_marked`: the replacements cut no tag that an earlier one put in;
* `render_safe`: a browser reads no other tags than those of the renderer.
-/

namespace CodexMemory.Markdown

open Html

/-! ## The code -/

/-- `\s` and `trim` of JavaScript. -/
def isBlank (c : Char) : Bool :=
  let n := c.toNat
  (0x09 ≤ n && n ≤ 0x0d) || n == 0x20 || n == 0xa0 || n == 0x1680 || (0x2000 ≤ n && n ≤ 0x200a) || n == 0x2028 ||
    n == 0x2029 || n == 0x202f || n == 0x205f || n == 0x3000 || n == 0xfeff

/-- What `.` does not match. -/
def isTerminator (c : Char) : Bool := c == '\n' || c == '\r' || c.toNat == 0x2028 || c.toNat == 0x2029

def escapeHtml (value : List Char) : List Char :=
  replaceChar '\'' "&#039;".toList <| replaceChar '"' "&quot;".toList <| replaceChar '>' "&gt;".toList <|
    replaceChar '<' "&lt;".toList <| replaceChar '&' "&amp;".toList value

/-- `[^c]+`, and what is behind it. -/
def upTo (c : Char) (s : List Char) : Option (List Char × List Char) :=
  if s.takeWhile (· != c) = [] then none else some (s.takeWhile (· != c), s.dropWhile (· != c))

/-- A match of the code pattern. -/
def codeMatch : List Char → Option (List Char × List Char)
  | [] => none
  | c :: s =>
    if c = '`' then
      match upTo '`' s with
      | some (inner, '`' :: rest) => some ("<code>".toList ++ inner ++ "</code>".toList, rest)
      | _ => none
    else none

/-- A match of the pattern for strong text. -/
def strongMatch : List Char → Option (List Char × List Char)
  | [] => none
  | c :: s =>
    if c = '*' then
      match s with
      | '*' :: s =>
        match upTo '*' s with
        | some (inner, '*' :: '*' :: rest) => some ("<strong>".toList ++ inner ++ "</strong>".toList, rest)
        | _ => none
      | _ => none
    else none

/-- `https?:\/\/`, and what is behind it. -/
def protocol : List Char → Option (List Char × List Char)
  | 'h' :: 't' :: 't' :: 'p' :: 's' :: ':' :: '/' :: '/' :: s => some ("https://".toList, s)
  | 'h' :: 't' :: 't' :: 'p' :: ':' :: '/' :: '/' :: s => some ("http://".toList, s)
  | _ => none

/-- `[^\s)]` -/
def inAddress (c : Char) : Bool := !isBlank c && c != ')'

/-- The tag of a link. -/
def anchor (address : List Char) : List Char :=
  "<a href=\"".toList ++ address ++ "\" target=\"_blank\" rel=\"noopener noreferrer\">".toList

/-- A match of the pattern for links. -/
def linkMatch : List Char → Option (List Char × List Char)
  | [] => none
  | c :: s =>
    if c = '[' then
      match upTo ']' s with
      | some (label, ']' :: '(' :: s) =>
        match protocol s with
        | some (scheme, s) =>
          match s.takeWhile inAddress, s.dropWhile inAddress with
          | d :: address, ')' :: rest => some (anchor (scheme ++ d :: address) ++ label ++ "</a>".toList, rest)
          | _, _ => none
        | none => none
      | _ => none
    else none

def inline (value : List Char) : List Char :=
  replaceEach linkMatch (replaceEach strongMatch (replaceEach codeMatch (escapeHtml value)))

/-- What `\s+(.+)$` takes as its group.  If only white space is left, the last of it is the group. -/
def spaced (s : List Char) : Option (List Char) :=
  let space := s.takeWhile isBlank
  let rest := s.dropWhile isBlank
  if space = [] then none
  else if rest = [] then
    match space.reverse with
    | last :: _ :: _ => if isTerminator last then none else some [last]
    | _ => none
  else if rest.any isTerminator then none
  else some rest

/-- The match of a heading: its level less two, and its text. -/
def heading (line : List Char) : Option (Fin 4 × List Char) :=
  let hashes := (line.takeWhile (· == '#')).length
  if h : 1 ≤ hashes ∧ hashes ≤ 4 then
    (spaced (line.dropWhile (· == '#'))).map fun text => (⟨hashes - 1, by omega⟩, text)
  else none

/-- The match of a list item. -/
def item (line : List Char) : Option (List Char) :=
  match line.dropWhile isBlank with
  | c :: s => if c = '-' ∨ c = '*' then spaced s else none
  | [] => none

/-- `output`, `inCode` and `inList` -/
structure Writer where
  output : List (List Char)
  inCode : Bool
  inList : Bool

def Writer.push (w : Writer) (text : List Char) : Writer := { w with output := w.output ++ [text] }

/-- A list that is open ends. -/
def Writer.endList (w : Writer) : Writer :=
  if w.inList then { w.push "</ul>".toList with inList := false } else w

/-- A list is open after this. -/
def Writer.beginList (w : Writer) : Writer :=
  if w.inList then w else { w.push "<ul>".toList with inList := true }

/-- `<h2>` to `<h5>` -/
def headingTag (slash : List Char) (level : Fin 4) : List Char :=
  "<".toList ++ slash ++ "h".toList ++ (toString (level.val + 2)).toList ++ ">".toList

def isFence (line : List Char) : Bool := "```".toList.isPrefixOf line

/-- One round of the loop. -/
def writeLine (w : Writer) (line : List Char) : Writer :=
  if isFence line then
    let w := w.endList
    { w.push (if w.inCode then "</code></pre>".toList else "<pre><code>".toList) with inCode := !w.inCode }
  else if w.inCode then w.push (escapeHtml line ++ ['\n'])
  else
    match heading line with
    | some (level, text) => w.endList.push (headingTag [] level ++ inline text ++ headingTag ['/'] level)
    | none =>
      match item line with
      | some text =>
        w.beginList.push ("<li>".toList ++ inline text ++ "</li>".toList)
      | none =>
        w.endList.push (if line.all isBlank then [] else "<p>".toList ++ inline line ++ "</p>".toList)

/-- What is open after the last line ends. -/
def Writer.close (w : Writer) : Writer :=
  let w := w.endList
  if w.inCode then w.push "</code></pre>".toList else w

/-- `replaceAll('\r\n', '\n')` -/
def unixLines : List Char → List Char
  | '\r' :: '\n' :: s => '\n' :: unixLines s
  | c :: s => c :: unixLines s
  | [] => []

def renderSafeMarkdown (source : List Char) : List Char :=
  (((unixLines source).splitOn '\n').foldl writeLine ⟨[], false, false⟩).close.output.flatten

example : renderSafeMarkdown "# a\n- **b**\n<i>".toList =
    "<h2>a</h2><ul><li><strong>b</strong></li></ul><p>&lt;i&gt;</p>".toList := by decide

/-! ## The tags -/

/-- The tags of the replacements for code and strong text. -/
def spanTags : List (List Char) :=
  ["<code>".toList, "</code>".toList, "<strong>".toList, "</strong>".toList]

/-- The tag of a link: the address begins with the scheme and has no quotes. -/
def IsAnchor (t : List Char) : Prop :=
  ∃ address, t = anchor address ∧ ("http://".toList <+: address ∨ "https://".toList <+: address) ∧ '"' ∉ address

/-- The tags within a line. -/
def InlineTag (t : List Char) : Prop := t ∈ spanTags ∨ t = "</a>".toList ∨ IsAnchor t

theorem spanTags_open : ∀ t ∈ spanTags, ∃ r, t = '<' :: r := by
  intro t ht
  simp only [spanTags, List.mem_cons, List.not_mem_nil, or_false] at ht
  rcases ht with rfl | rfl | rfl | rfl
  · exact ⟨_, rfl⟩
  · exact ⟨_, rfl⟩
  · exact ⟨_, rfl⟩
  · exact ⟨_, rfl⟩

theorem spanTags_ne : ∀ t ∈ spanTags, t ≠ [] := by decide

/-- No tag so far has a character of a pattern in it. -/
theorem spanTags_chars :
    ∀ t ∈ spanTags, ∀ c ∈ t, c ≠ '`' ∧ c ≠ '*' ∧ c ≠ '[' ∧ c ≠ ']' ∧ c ≠ '"' ∧ inAddress c = true := by
  decide

/-! ## The replacements -/

theorem escapeHtml_plain (value : List Char) : ∀ c ∈ escapeHtml value, special c = false := by
  intro c hc
  rcases mem_replaceChar hc with h | ⟨h, hsingle⟩
  · exact (by decide : ∀ d ∈ "&#039;".toList, special d = false) c h
  rcases mem_replaceChar h with h | ⟨h, hdouble⟩
  · exact (by decide : ∀ d ∈ "&quot;".toList, special d = false) c h
  rcases mem_replaceChar h with h | ⟨h, hclose⟩
  · exact (by decide : ∀ d ∈ "&gt;".toList, special d = false) c h
  rcases mem_replaceChar h with h | ⟨h, hopen⟩
  · exact (by decide : ∀ d ∈ "&lt;".toList, special d = false) c h
  rcases mem_replaceChar h with h | ⟨-, -⟩
  · exact (by decide : ∀ d ∈ "&amp;".toList, special d = false) c h
  simp [special, hsingle, hdouble, hclose, hopen]

section Matches

variable {T : List Char → Prop} {s inner rest : List Char}

/-- What `upTo` takes, and what is behind it. -/
theorem upTo_some {c : Char} (h : upTo c s = some (inner, rest)) :
    inner = s.takeWhile (· != c) ∧ rest = s.dropWhile (· != c) := by
  unfold upTo at h
  split at h
  · cases h
  · cases h
    exact ⟨rfl, rfl⟩

theorem upTo_length {c : Char} (h : upTo c s = some (inner, rest)) : rest.length ≤ s.length := by
  rw [(upTo_some h).2]
  exact (List.dropWhile_suffix _).length_le

theorem upTo_marked {c : Char} (hT : ∀ t, T t → ∀ d ∈ t, d ≠ c) (hs : Marked T s) (h : upTo c s = some (inner, rest)) :
    Marked T inner ∧ Marked T rest := by
  obtain ⟨rfl, rfl⟩ := upTo_some h
  have hkeeps : ∀ t, T t → ∀ d ∈ t, (d != c) = true := fun t ht d hd => bne_iff_ne.mpr (hT t ht d hd)
  exact ⟨hs.takeWhile hkeeps, hs.dropWhile hkeeps⟩

theorem codeMatch_marked {T' : List Char → Prop} (hT : ∀ t, T t → ∃ r, t = '<' :: r)
    (hchars : ∀ t, T t → ∀ c ∈ t, c ≠ '`') (hsub : ∀ t, T t → T' t) (htags : ∀ t ∈ spanTags, T' t)
    {replacement : List Char} (hs : Marked T s) (h : codeMatch s = some (replacement, rest)) :
    Marked T' replacement ∧ Marked T rest ∧ rest.length < s.length := by
  cases s with
  | nil => cases h
  | cons c s =>
    rw [codeMatch] at h
    split at h
    · next hc =>
      subst hc
      have hs := hs.tail hT (by decide)
      split at h
      · next inner behind hto =>
        cases h
        obtain ⟨hinner, hrest⟩ := upTo_marked hchars hs hto
        have hlength := upTo_length hto
        refine ⟨((Marked.single (htags _ (by decide))).append (hinner.mono hsub)).append (.single (htags _ (by decide))),
          hrest.tail hT (by decide), ?_⟩
        simp only [List.length_cons] at hlength ⊢
        omega
      · cases h
    · cases h

theorem strongMatch_marked {T' : List Char → Prop} (hT : ∀ t, T t → ∃ r, t = '<' :: r)
    (hchars : ∀ t, T t → ∀ c ∈ t, c ≠ '*') (hsub : ∀ t, T t → T' t) (htags : ∀ t ∈ spanTags, T' t)
    {replacement : List Char} (hs : Marked T s) (h : strongMatch s = some (replacement, rest)) :
    Marked T' replacement ∧ Marked T rest ∧ rest.length < s.length := by
  cases s with
  | nil => cases h
  | cons c s =>
    unfold strongMatch at h
    dsimp only at h
    split at h
    · next hc =>
      subst hc
      have hs := hs.tail hT (by decide)
      split at h
      · next s =>
        have hs := hs.tail hT (by decide)
        split at h
        · next inner behind hto =>
          cases h
          obtain ⟨hinner, hrest⟩ := upTo_marked hchars hs hto
          have hlength := upTo_length hto
          refine ⟨((Marked.single (htags _ (by decide))).append (hinner.mono hsub)).append
            (.single (htags _ (by decide))), (hrest.tail hT (by decide)).tail hT (by decide), ?_⟩
          simp only [List.length_cons] at hlength ⊢
          omega
        · cases h
      · cases h
    · cases h

/-- The scheme of an address, and the text behind it. -/
theorem protocol_some {scheme : List Char} (h : protocol s = some (scheme, rest)) :
    s = scheme ++ rest ∧ (scheme = "http://".toList ∨ scheme = "https://".toList) := by
  unfold protocol at h
  split at h
  · cases h
    exact ⟨rfl, Or.inr rfl⟩
  · cases h
    exact ⟨rfl, Or.inl rfl⟩
  · cases h

theorem linkMatch_marked (hs : Marked (· ∈ spanTags) s) {replacement : List Char}
    (h : linkMatch s = some (replacement, rest)) :
    Marked InlineTag replacement ∧ Marked (· ∈ spanTags) rest ∧ rest.length < s.length := by
  have hclean := spanTags_chars
  cases s with
  | nil => cases h
  | cons c s =>
    rw [linkMatch] at h
    split at h
    · next hc =>
      subst hc
      have hs := hs.tail spanTags_open (by decide)
      split at h
      · next label s' hto =>
        obtain ⟨hlabel, hbehind⟩ := upTo_marked (fun t ht d hd => (hclean t ht d hd).2.2.2.1) hs hto
        have hlength := upTo_length hto
        have hbehind := (hbehind.tail spanTags_open (by decide)).tail spanTags_open (by decide)
        split at h
        · next scheme s'' hscheme =>
          obtain ⟨rfl, hkind⟩ := protocol_some hscheme
          have hopen : '<' ∉ scheme ∧ '"' ∉ scheme ∧ ("http://".toList <+: scheme ∨ "https://".toList <+: scheme) := by
            rcases hkind with rfl | rfl
            · exact ⟨by decide, by decide, Or.inl List.prefix_rfl⟩
            · exact ⟨by decide, by decide, Or.inr List.prefix_rfl⟩
          have hbehind := hbehind.behind spanTags_open hopen.1
          split at h
          · next d address rest haddress hrest =>
            cases h
            have hkeeps : ∀ t ∈ spanTags, ∀ e ∈ t, inAddress e = true := fun t ht e he => (hclean t ht e he).2.2.2.2.2
            have hmarked := hbehind.takeWhile hkeeps
            have hafter := hbehind.dropWhile hkeeps
            have hshort := (List.dropWhile_suffix (p := inAddress) (l := s'')).length_le
            rw [haddress] at hmarked
            rw [hrest] at hafter hshort
            have hquotes : '"' ∉ scheme ++ d :: address := by
              rw [List.mem_append, not_or]
              exact ⟨hopen.2.1, hmarked.not_mem rfl fun t ht hmem => (hclean t ht _ hmem).2.2.2.2.1 rfl⟩
            have hanchor : IsAnchor (anchor (scheme ++ d :: address)) := by
              refine ⟨_, rfl, ?_, hquotes⟩
              exact hopen.2.2.imp (·.trans (List.prefix_append _ _)) (·.trans (List.prefix_append _ _))
            refine ⟨((Marked.single (Or.inr (Or.inr hanchor))).append (hlabel.mono fun _ ht => Or.inl ht)).append
              (.single (Or.inr (Or.inl rfl))), hafter.tail spanTags_open (by decide), ?_⟩
            simp only [List.length_cons, List.length_append] at hlength hshort ⊢
            omega
          · cases h
        · cases h
      · cases h
    · cases h

end Matches

theorem inline_marked (value : List Char) : Marked InlineTag (inline value) := by
  have hcode : Marked (· ∈ spanTags) (replaceEach codeMatch (escapeHtml value)) :=
    replaceEach_marked (T := fun _ => False) (by rintro _ ⟨⟩) (by rintro _ ⟨⟩) (by rintro _ ⟨⟩)
      (fun hs h => codeMatch_marked (by rintro _ ⟨⟩) (by rintro _ ⟨⟩) (by rintro _ ⟨⟩) (fun _ ht => ht) hs h)
      (.plain (escapeHtml_plain value))
  have hstrong : Marked (· ∈ spanTags) (replaceEach strongMatch (replaceEach codeMatch (escapeHtml value))) :=
    replaceEach_marked spanTags_ne (fun _ ht => ht) (fun t ht c hc s => if_neg (spanTags_chars t ht c hc).2.1)
      (fun hs h => strongMatch_marked spanTags_open (fun t ht c hc => (spanTags_chars t ht c hc).2.1) (fun _ ht => ht)
        (fun _ ht => ht) hs h) hcode
  exact replaceEach_marked spanTags_ne (fun _ ht => Or.inl ht)
    (fun t ht c hc s => if_neg (spanTags_chars t ht c hc).2.2.1) (fun hs h => linkMatch_marked hs h) hstrong

/-! ## Blocks -/

/-- A line that is a list item outside code. -/
def isItem (line : List Char) : Bool := !isFence line && (heading line).isNone && (item line).isSome

/-- What the lines of a text are parts of. -/
inductive Block
  | code (lines : List (List Char))
  | heading (level : Fin 4) (text : List Char)
  | list (items : List (List Char))
  | paragraph (line : List Char)
  | blank

def codeLine (line : List Char) : List Char := escapeHtml line ++ ['\n']

def listItem (text : List Char) : List Char := "<li>".toList ++ inline text ++ "</li>".toList

/-- The markup of a block. -/
def Block.html : Block → List Char
  | .code lines => "<pre><code>".toList ++ lines.flatMap codeLine ++ "</code></pre>".toList
  | .heading level text => headingTag [] level ++ inline text ++ headingTag ['/'] level
  | .list items => "<ul>".toList ++ items.flatMap listItem ++ "</ul>".toList
  | .paragraph line => "<p>".toList ++ inline line ++ "</p>".toList
  | .blank => []

theorem html_code (lines : List (List Char)) :
    (Block.code lines).html = "<pre><code>".toList ++ lines.flatMap codeLine ++ "</code></pre>".toList := rfl

theorem html_list (items : List (List Char)) :
    (Block.list items).html = "<ul>".toList ++ items.flatMap listItem ++ "</ul>".toList := rfl

/-- The blocks of a text: a fence begins a block of code, which goes on to the next fence or to the end, and list
items in a row are one list. -/
def blocks : List (List Char) → List Block
  | [] => []
  | line :: rest =>
    if isFence line then .code (rest.takeWhile (!isFence ·)) :: blocks (rest.dropWhile (!isFence ·)).tail
    else
      match heading line with
      | some (level, text) => .heading level text :: blocks rest
      | none =>
        match item line with
        | some text => .list (text :: (rest.takeWhile isItem).filterMap item) :: blocks (rest.dropWhile isItem)
        | none => (if line.all isBlank then .blank else .paragraph line) :: blocks rest
termination_by lines => lines.length
decreasing_by
  · have h := (List.dropWhile_suffix (p := (!isFence ·)) (l := rest)).length_le
    simp only [List.length_tail, List.length_cons]
    omega
  · simp
  · have h := (List.dropWhile_suffix (p := isItem) (l := rest)).length_le
    simp only [List.length_cons]
    omega
  · simp

/-- What is written of the lines when a block of code or a list is open. -/
def written (inCode inList : Bool) (lines : List (List Char)) : List Char :=
  (lines.foldl writeLine ⟨[], inCode, inList⟩).close.output.flatten

/-- The output with `front` before it. -/
def Writer.after (w : Writer) (front : List (List Char)) : Writer := { w with output := front ++ w.output }

section After

variable (w : Writer) (front : List (List Char))

@[simp] theorem after_inCode : (w.after front).inCode = w.inCode := rfl

@[simp] theorem after_inList : (w.after front).inList = w.inList := rfl

theorem push_after (text : List Char) : (w.after front).push text = (w.push text).after front := by
  simp only [Writer.push, Writer.after, List.append_assoc]

theorem endList_after : (w.after front).endList = w.endList.after front := by
  cases h : w.inList with
  | false => simp only [Writer.endList, after_inList, h, Bool.false_eq_true, if_false]
  | true =>
    simp only [Writer.endList, after_inList, h, if_true, push_after]
    rfl

theorem beginList_after : (w.after front).beginList = w.beginList.after front := by
  cases h : w.inList with
  | false =>
    simp only [Writer.beginList, after_inList, h, Bool.false_eq_true, if_false, push_after]
    rfl
  | true => simp only [Writer.beginList, after_inList, h, if_true]

theorem writeLine_after (line : List Char) : writeLine (w.after front) line = (writeLine w line).after front := by
  unfold writeLine
  split
  · dsimp only
    rw [endList_after, push_after]
    rfl
  · rw [after_inCode]
    split
    · exact push_after ..
    · split
      · rw [endList_after, push_after]
      · split
        · rw [beginList_after, push_after]
        · rw [endList_after, push_after]

theorem close_after : (w.after front).close = w.close.after front := by
  unfold Writer.close
  dsimp only
  rw [endList_after, after_inCode]
  split
  · exact push_after ..
  · rfl

theorem writeLines_after (lines : List (List Char)) :
    lines.foldl writeLine (w.after front) = (lines.foldl writeLine w).after front := by
  induction lines generalizing w with
  | nil => rfl
  | cons line lines ih => rw [List.foldl_cons, List.foldl_cons, writeLine_after, ih]

end After

/-- What was written before stays. -/
theorem written_from (output : List (List Char)) (inCode inList : Bool) (lines : List (List Char)) :
    (lines.foldl writeLine ⟨output, inCode, inList⟩).close.output.flatten =
      output.flatten ++ written inCode inList lines := by
  have h := writeLines_after ⟨[], inCode, inList⟩ output lines
  rw [show Writer.after ⟨[], inCode, inList⟩ output = ⟨output, inCode, inList⟩ by simp [Writer.after]] at h
  rw [h, close_after]
  exact List.flatten_append

/-- What one round writes, and what the rest writes. -/
theorem written_cons {inCode inList inCode' inList' : Bool} {line : List Char} {output : List (List Char)}
    (h : writeLine ⟨[], inCode, inList⟩ line = ⟨output, inCode', inList'⟩) (lines : List (List Char)) :
    written inCode inList (line :: lines) = output.flatten ++ written inCode' inList' lines := by
  rw [written, List.foldl_cons, h, written_from]

section Rounds

variable {line : List Char} {lines : List (List Char)}

theorem written_fence (hfence : isFence line = true) :
    written false false (line :: lines) = "<pre><code>".toList ++ written true false lines := by
  have h : writeLine ⟨[], false, false⟩ line = ⟨["<pre><code>".toList], true, false⟩ := by
    rw [writeLine, if_pos hfence]
    rfl
  rw [written_cons h, List.flatten_singleton]

theorem written_unfence (hfence : isFence line = true) :
    written true false (line :: lines) = "</code></pre>".toList ++ written false false lines := by
  have h : writeLine ⟨[], true, false⟩ line = ⟨["</code></pre>".toList], false, false⟩ := by
    rw [writeLine, if_pos hfence]
    rfl
  rw [written_cons h, List.flatten_singleton]

theorem written_code (hfence : ¬ isFence line = true) :
    written true false (line :: lines) = codeLine line ++ written true false lines := by
  have h : writeLine ⟨[], true, false⟩ line = ⟨[codeLine line], true, false⟩ := by
    rw [writeLine, if_neg hfence]
    rfl
  rw [written_cons h, List.flatten_singleton]

theorem written_heading (hfence : ¬ isFence line = true) {level : Fin 4} {text : List Char}
    (hheading : heading line = some (level, text)) :
    written false false (line :: lines) = (Block.heading level text).html ++ written false false lines := by
  have h : writeLine ⟨[], false, false⟩ line = ⟨[(Block.heading level text).html], false, false⟩ := by
    rw [writeLine, if_neg hfence, hheading]
    rfl
  rw [written_cons h, List.flatten_singleton]

theorem written_item (hfence : ¬ isFence line = true) (hheading : heading line = none) {text : List Char}
    (hitem : item line = some text) (inList : Bool) :
    written false inList (line :: lines) =
      (if inList then [] else "<ul>".toList) ++ listItem text ++ written false true lines := by
  cases inList with
  | false =>
    have h : writeLine ⟨[], false, false⟩ line = ⟨["<ul>".toList, listItem text], false, true⟩ := by
      rw [writeLine, if_neg hfence, hheading, hitem]
      rfl
    rw [written_cons h, List.flatten_cons, List.flatten_singleton, if_neg Bool.false_ne_true]
  | true =>
    have h : writeLine ⟨[], false, true⟩ line = ⟨[listItem text], false, true⟩ := by
      rw [writeLine, if_neg hfence, hheading, hitem]
      rfl
    rw [written_cons h, List.flatten_singleton, if_pos rfl, List.nil_append]

theorem written_paragraph (hfence : ¬ isFence line = true) (hheading : heading line = none) (hitem : item line = none) :
    written false false (line :: lines) =
      (if line.all isBlank then Block.blank else .paragraph line).html ++ written false false lines := by
  have h : writeLine ⟨[], false, false⟩ line =
      ⟨[(if line.all isBlank then Block.blank else .paragraph line).html], false, false⟩ := by
    rw [writeLine, if_neg hfence, hheading, hitem]
    cases line.all isBlank with
    | false => rfl
    | true => rfl
  rw [written_cons h, List.flatten_singleton]

/-- A line that is not an item ends the list. -/
theorem written_endList (hline : ¬ isItem line = true) :
    written false true (line :: lines) = "</ul>".toList ++ written false false (line :: lines) := by
  have hends : writeLine ⟨[], false, true⟩ line = (writeLine ⟨[], false, false⟩ line).after ["</ul>".toList] := by
    rw [← writeLine_after]
    unfold writeLine
    split
    · rfl
    · next hfence =>
      rw [if_neg (show ¬ (⟨[], false, true⟩ : Writer).inCode = true from Bool.false_ne_true),
        if_neg (show ¬ ((⟨[], false, false⟩ : Writer).after _).inCode = true from Bool.false_ne_true)]
      split
      · rfl
      · next hheading =>
        split
        · next text hitem =>
          exact absurd (by simp [isItem, hheading, hitem, hfence]) hline
        · rfl
  have h := writeLines_after (writeLine ⟨[], false, false⟩ line) ["</ul>".toList] lines
  rw [written, List.foldl_cons, hends, h, close_after]
  rfl

end Rounds

/-- A block of code. -/
theorem written_codeBlock (lines : List (List Char)) :
    written true false lines = (lines.takeWhile (!isFence ·)).flatMap codeLine ++ "</code></pre>".toList ++
      written false false (lines.dropWhile (!isFence ·)).tail := by
  induction lines with
  | nil => rfl
  | cons line lines ih =>
    by_cases hfence : isFence line = true
    · rw [written_unfence hfence, List.takeWhile_cons_of_neg (by simp [hfence]),
        List.dropWhile_cons_of_neg (by simp [hfence]), List.flatMap_nil, List.nil_append, List.tail_cons]
    · rw [written_code hfence, ih, List.takeWhile_cons_of_pos (by simp [hfence]),
        List.dropWhile_cons_of_pos (by simp [hfence]), List.flatMap_cons]
      simp only [List.append_assoc]

/-- The rest of a list. -/
theorem written_list (lines : List (List Char)) :
    written false true lines = ((lines.takeWhile isItem).filterMap item).flatMap listItem ++ "</ul>".toList ++
      written false false (lines.dropWhile isItem) := by
  induction lines with
  | nil => rfl
  | cons line lines ih =>
    by_cases hline : isItem line = true
    · have hparts := hline
      simp only [isItem, Bool.and_eq_true, Bool.not_eq_true', Option.isNone_iff_eq_none, Option.isSome_iff_exists] at hparts
      obtain ⟨⟨hfence, hheading⟩, text, hitem⟩ := hparts
      rw [written_item (by simp [hfence]) hheading hitem, ih, List.takeWhile_cons_of_pos hline,
        List.dropWhile_cons_of_pos hline, List.filterMap_cons_some hitem, List.flatMap_cons, if_pos rfl,
        List.nil_append]
      simp only [List.append_assoc]
    · rw [written_endList hline, List.takeWhile_cons_of_neg hline, List.dropWhile_cons_of_neg hline,
        List.filterMap_nil, List.flatMap_nil, List.nil_append]

/-- The loop writes the blocks of its lines. -/
theorem written_blocks (lines : List (List Char)) : written false false lines = (blocks lines).flatMap Block.html := by
  induction lines using blocks.induct with
  | case1 =>
    rw [blocks, List.flatMap_nil]
    rfl
  | case2 line rest hfence ih =>
    rw [written_fence hfence, written_codeBlock, ih, ← List.append_assoc, ← List.append_assoc, blocks, if_pos hfence,
      List.flatMap_cons, html_code]
  | case3 line rest hfence level text hheading ih =>
    rw [written_heading hfence hheading, ih, blocks, if_neg hfence, hheading]
    exact List.flatMap_cons.symm
  | case4 line rest hfence hheading text hitem ih =>
    rw [written_item hfence hheading hitem, if_neg Bool.false_ne_true, written_list, ih, ← List.append_assoc,
      ← List.append_assoc, blocks, if_neg hfence, hheading, hitem]
    dsimp only
    rw [List.flatMap_cons, html_list, List.flatMap_cons, List.append_assoc "<ul>".toList]
  | case5 line rest hfence hheading hitem ih =>
    rw [written_paragraph hfence hheading hitem, ih, blocks, if_neg hfence, hheading, hitem]
    exact List.flatMap_cons.symm

/-! ## What a browser reads -/

/-- The texts of the tags without attributes. -/
def tagNames : List (List Char) :=
  ["p", "/p", "ul", "/ul", "li", "/li", "pre", "/pre", "code", "/code", "strong", "/strong", "/a", "h2", "/h2", "h3",
    "/h3", "h4", "/h4", "h5", "/h5"].map String.toList

/-- The tag of a link as a browser reads it. -/
def anchorText (address : List Char) : List Char :=
  "a href=".toList ++ '"' :: (address ++ ['"']) ++ (" target=".toList ++ '"' :: ("_blank".toList ++ ['"'])) ++
    (" rel=".toList ++ '"' :: ("noopener noreferrer".toList ++ ['"']))

/-- The text of a tag that the renderer may write. -/
def Allowed (text : List Char) : Prop :=
  text ∈ tagNames ∨ ∃ address, text = anchorText address ∧
    ("http://".toList <+: address ∨ "https://".toList <+: address) ∧ '"' ∉ address

theorem tagNames_plain : ∀ name ∈ tagNames, ∀ c ∈ name, c ≠ '>' ∧ c ≠ '"' := by decide

theorem readsAs_name {name : List Char} (hname : name ∈ tagNames) : ReadsAs Allowed ('<' :: name ++ ['>']) := by
  refine ⟨name, Or.inl hname, fun s => ?_⟩
  rw [List.append_assoc, List.cons_append, tokens, if_pos rfl, tokens_tag (tagNames_plain name hname)]
  exact if_pos rfl

theorem anchor_append (address s : List Char) :
    anchor address ++ s = '<' :: ("a href=".toList ++ '"' :: (address ++ '"' :: (" target=".toList ++ '"' ::
      ("_blank".toList ++ '"' :: (" rel=".toList ++ '"' :: ("noopener noreferrer".toList ++ '"' :: '>' :: s)))))) :=
  (List.append_assoc _ _ _).trans (List.append_assoc _ _ _)

theorem readsAs_anchor {address : List Char} (hscheme : "http://".toList <+: address ∨ "https://".toList <+: address)
    (hquotes : '"' ∉ address) : ReadsAs Allowed (anchor address) := by
  refine ⟨anchorText address, Or.inr ⟨address, rfl, hscheme, hquotes⟩, fun s => ?_⟩
  have htarget : ∀ read s, tokens (.tag read) (" target=".toList ++ '"' :: ("_blank".toList ++ '"' :: s)) =
      tokens (.tag (read ++ (" target=".toList ++ '"' :: ("_blank".toList ++ ['"'])))) s :=
    tokens_attribute (by decide) (by decide)
  have hrel : ∀ read s, tokens (.tag read) (" rel=".toList ++ '"' :: ("noopener noreferrer".toList ++ '"' :: s)) =
      tokens (.tag (read ++ (" rel=".toList ++ '"' :: ("noopener noreferrer".toList ++ ['"'])))) s :=
    tokens_attribute (by decide) (by decide)
  rw [anchor_append, tokens, if_pos rfl, tokens_attribute (by decide) hquotes, htarget, hrel, List.nil_append, tokens,
    if_pos rfl]
  rfl

/-- The tags of the renderer. -/
def Written (t : List Char) : Prop := (∃ name ∈ tagNames, t = '<' :: name ++ ['>']) ∨ IsAnchor t

theorem Written.readsAs {t : List Char} (h : Written t) : ReadsAs Allowed t := by
  rcases h with ⟨name, hname, rfl⟩ | ⟨address, rfl, hscheme, hquotes⟩
  · exact readsAs_name hname
  · exact readsAs_anchor hscheme hquotes

theorem InlineTag.written {t : List Char} (h : InlineTag t) : Written t := by
  have hspan : ∀ t ∈ spanTags, ∃ name ∈ tagNames, t = '<' :: name ++ ['>'] := by decide
  rcases h with h | rfl | h
  · exact Or.inl (hspan t h)
  · exact Or.inl (by decide)
  · exact Or.inr h

theorem written_name (name : List Char) (hname : name ∈ tagNames) : Marked Written ('<' :: name ++ ['>']) :=
  .single (Or.inl ⟨name, hname, rfl⟩)

theorem inline_written (value : List Char) : Marked Written (inline value) :=
  (inline_marked value).mono fun _ => InlineTag.written

theorem headingTag_written {slash : List Char} (hslash : slash = [] ∨ slash = ['/']) (level : Fin 4) :
    Marked Written (headingTag slash level) := by
  refine .single (Or.inl ?_)
  rcases hslash with rfl | rfl
  · exact (by decide : ∀ level : Fin 4, ∃ name ∈ tagNames, headingTag [] level = '<' :: name ++ ['>']) level
  · exact (by decide : ∀ level : Fin 4, ∃ name ∈ tagNames, headingTag ['/'] level = '<' :: name ++ ['>']) level

theorem marked_flatMap {α : Type} {T : List Char → Prop} {f : α → List Char} (h : ∀ a, Marked T (f a)) (l : List α) :
    Marked T (l.flatMap f) := by
  induction l with
  | nil => exact .nil
  | cons a l ih =>
    rw [List.flatMap_cons]
    exact (h a).append ih

theorem codeLine_written (line : List Char) : Marked Written (codeLine line) :=
  (Marked.plain (escapeHtml_plain line)).append (.plain (by decide))

theorem listItem_written (text : List Char) : Marked Written (listItem text) :=
  ((written_name "li".toList (by decide)).append (inline_written text)).append
    (written_name "/li".toList (by decide))

theorem html_written (block : Block) : Marked Written block.html := by
  cases block with
  | code lines =>
    have hopen : Marked Written "<pre><code>".toList :=
      (written_name "pre".toList (by decide)).append (written_name "code".toList (by decide))
    have hclose : Marked Written "</code></pre>".toList :=
      (written_name "/code".toList (by decide)).append (written_name "/pre".toList (by decide))
    exact (hopen.append (marked_flatMap codeLine_written lines)).append hclose
  | heading level text =>
    exact ((headingTag_written (Or.inl rfl) level).append (inline_written text)).append
      (headingTag_written (Or.inr rfl) level)
  | list items =>
    exact ((written_name "ul".toList (by decide)).append (marked_flatMap listItem_written items)).append
      (written_name "/ul".toList (by decide))
  | paragraph line =>
    exact ((written_name "p".toList (by decide)).append (inline_written line)).append
      (written_name "/p".toList (by decide))
  | blank => exact .nil

theorem blocks_written (source : List Char) : Marked Written (renderSafeMarkdown source) := by
  have h : renderSafeMarkdown source = (blocks ((unixLines source).splitOn '\n')).flatMap Block.html :=
    written_blocks _
  rw [h]
  exact marked_flatMap html_written _

/-! ## The results -/

/-- **Whole blocks.**  However fences, headings and list items follow one another, the output is a sequence of blocks
that are complete. -/
theorem render_blocks (source : List Char) :
    renderSafeMarkdown source = (blocks ((unixLines source).splitOn '\n')).flatMap Block.html :=
  written_blocks _

/-- **The output is safe.**  A browser reads it to the end.  It finds no other tags than those of the renderer, links
lead to addresses of `http` or `https` only, and the characters of the text mean nothing. -/
theorem render_safe (source : List Char) :
    ∃ read, tokens .text (renderSafeMarkdown source) = some read ∧ (∀ text, Token.tag text ∈ read → Allowed text) ∧
      ∀ c, Token.char c ∈ read → special c = false :=
  (blocks_written source).tokens fun _ => Written.readsAs

end CodexMemory.Markdown
