-- SUMMARY: The long explanation of each diagnostic code.
import Polyglot.Diagnostic.Code

/-!
# Explanations

What a code means, how it comes about and how to mend it, as a page of marked
up text for the reader of a report.
-/

namespace Polyglot

namespace Code

/-- A page of text from its lines. -/
def page (lines : List String) : String := String.join (lines.map (· ++ "\n"))

def unterminatedStringPage : String :=
  page [
    "# E0001: Unterminated String Literal",
    "",
    "A string literal was opened but the matching closing quote was never found.",
    "",
    "The scanner skips everything from the opening quote to the end of the file,",
    "so braces after it are not seen. This usually also produces an `E0002`",
    "for the enclosing block.",
    "",
    "## Example",
    "",
    "```chtl",
    "div \x7b",
    "    style \x7b",
    "        content: \"missing close;",
    "    \x7d",
    "\x7d",
    "```",
    "",
    "## Solution",
    "",
    "Close the string with the same quote character that opened it:",
    "",
    "```chtl",
    "div \x7b",
    "    style \x7b",
    "        content: \"missing close\";",
    "    \x7d",
    "\x7d",
    "```",
    "",
    "A backslash escapes the next character, so `\"a\\\"` is still open."]

def unbalancedBracesPage : String :=
  page [
    "# E0002: Unbalanced Braces",
    "",
    "A `\x7b` has no matching `\x7d` before the end of the file.",
    "",
    "Braces inside strings and comments do not count. When this happens inside a",
    "style, script or origin body, everything from that body to the end of the",
    "file is kept as one degraded fragment so no source text is lost.",
    "",
    "## Example",
    "",
    "```chtl",
    "div \x7b",
    "    text \x7b \"hello\" \x7d",
    "```",
    "",
    "## Solution",
    "",
    "Add the missing closing brace:",
    "",
    "```chtl",
    "div \x7b",
    "    text \x7b \"hello\" \x7d",
    "\x7d",
    "```"]

def contextMismatchPage : String :=
  page [
    "# E0003: Context Mismatch",
    "",
    "A closing brace or statement end did not match the block that is currently",
    "open.",
    "",
    "Common causes:",
    "- a stray `\x7d` at the top level",
    "- a `\x7d` directly after a declaration header such as `[Template] @Style Box`",
    "  that never opened its own body",
    "",
    "The scanner recovers by closing blocks until it finds the matching one, or",
    "by ignoring the stray brace.",
    "",
    "## Example",
    "",
    "```chtl",
    "div \x7b \x7d",
    "\x7d",
    "```",
    "",
    "## Solution",
    "",
    "Remove the extra `\x7d` or add the `\x7b` it was meant to close."]

def invalidInputPage : String :=
  page [
    "# E0004: Invalid Input",
    "",
    "The input was rejected before scanning started.",
    "",
    "This happens when the document is empty, or when it is larger than 4 GiB",
    "and cannot be addressed with 32-bit offsets.",
    "",
    "## Solution",
    "",
    "Pass a non-empty source file. Split very large generated documents into",
    "several files."]

def encodingPage : String :=
  page [
    "# W0001: Encoding Issue",
    "",
    "The source contains bytes that are valid UTF-8 but are almost always a",
    "mistake:",
    "- a byte order mark (`U+FEFF`) at the start of the file",
    "- a null byte (`U+0000`) anywhere in the file",
    "",
    "The bytes are kept in the output fragments unchanged.",
    "",
    "## Solution",
    "",
    "Save the file as UTF-8 without BOM and remove stray null bytes."]

def unterminatedBlockCommentPage : String :=
  page [
    "# W0002: Unterminated Block Comment",
    "",
    "A `/*` comment was opened but never closed with `*/`.",
    "",
    "Everything up to the end of the file is treated as comment text.",
    "",
    "## Example",
    "",
    "```chtl",
    "style \x7b",
    "    /* temporary",
    "    color: red;",
    "\x7d",
    "```",
    "",
    "## Solution",
    "",
    "Close the comment with `*/`."]

def foreignSyntaxPage : String :=
  page [
    "# W0003: Foreign Syntax in Block",
    "",
    "A block contains syntax that belongs to a different sub-language than the",
    "one the block is compiled as:",
    "",
    "- a `[Template]` or `[Custom]` declaration inside a `script` block",
    "- a `function` keyword or a `console.log` call inside a `style` block",
    "",
    "The scanner keeps the content where it is. The compiler for the block will",
    "most likely reject it.",
    "",
    "## Example",
    "",
    "```chtl",
    "div \x7b",
    "    style \x7b",
    "        function pulse() \x7b \x7d",
    "    \x7d",
    "\x7d",
    "```",
    "",
    "## Solution",
    "",
    "Move the code into a block of the right kind: declarations to the template",
    "level, script code into a `script` block."]

/-- The explanation of a code. -/
def explanation : Code → String
  | .unterminatedString => unterminatedStringPage
  | .unbalancedBraces => unbalancedBracesPage
  | .contextMismatch => contextMismatchPage
  | .invalidInput => invalidInputPage
  | .encoding => encodingPage
  | .unterminatedBlockComment => unterminatedBlockCommentPage
  | .foreignSyntax => foreignSyntaxPage

/-- The codes that are explained: all of them. -/
def explained : List Code := all.filter (!·.explanation.isEmpty)

end Code

end Polyglot
