-- SUMMARY: Lexical contexts: the kinds of region that a document can hold.
import Polyglot.Guard

/-!
# Contexts

Every region of a document belongs to exactly one context. The context decides
which strings and comments are guarded in it and which compiler it goes to.
-/

namespace Polyglot

/-- The sub-language region that a stretch of text lies in. -/
inductive Context where
  | global
  | elementBody
  | styleGlobal
  | styleLocal
  | scriptGlobal
  | scriptLocal
  | textBlock
  | templateBody
  | customBody
  | originBody
  | importStatement
  | namespaceBody
  | configurationBody
  | rawHtml
  | rawCss
  | rawScript
  deriving DecidableEq

namespace Context

/-- Every context, in listing order. -/
def all : List Context :=
  [.global, .elementBody, .styleGlobal, .styleLocal, .scriptGlobal, .scriptLocal, .textBlock,
    .templateBody, .customBody, .originBody, .importStatement, .namespaceBody,
    .configurationBody, .rawHtml, .rawCss, .rawScript]

theorem mem_all (c : Context) : c ∈ all := by cases c <;> decide

/-- The name of a context in listings and messages. -/
def name : Context → String
  | .global => "GLOBAL"
  | .elementBody => "ELEMENT_BODY"
  | .styleGlobal => "STYLE_GLOBAL"
  | .styleLocal => "STYLE_LOCAL"
  | .scriptGlobal => "SCRIPT_GLOBAL"
  | .scriptLocal => "SCRIPT_LOCAL"
  | .textBlock => "TEXT_BLOCK"
  | .templateBody => "TEMPLATE_BODY"
  | .customBody => "CUSTOM_BODY"
  | .originBody => "ORIGIN_BODY"
  | .importStatement => "IMPORT_STATEMENT"
  | .namespaceBody => "NAMESPACE_BODY"
  | .configurationBody => "CONFIGURATION_BODY"
  | .rawHtml => "RAW_HTML"
  | .rawCss => "RAW_CSS"
  | .rawScript => "RAW_SCRIPT"

/-- The context with a given name. -/
def ofName? (name : String) : Option Context := all.find? (·.name = name)

theorem ofName?_name (c : Context) : ofName? c.name = some c := by cases c <;> decide

/-! ## Families -/

/-- A style block of a document. -/
def isStyle (c : Context) : Bool := c = .styleGlobal || c = .styleLocal

/-- A script block of a document. -/
def isScript (c : Context) : Bool := c = .scriptGlobal || c = .scriptLocal

/-- The verbatim body of an origin block. -/
def isRaw (c : Context) : Bool := c = .rawHtml || c = .rawCss || c = .rawScript

/-- Text of the template language itself. -/
def isTemplate (c : Context) : Bool := !(c.isStyle || c.isScript || c.isRaw)

/-- The strings and comments guarded in a context. -/
def guardSet : Context → GuardSet
  | .styleGlobal | .styleLocal | .rawCss => .style
  | .scriptGlobal | .scriptLocal | .rawScript => .script
  | .rawHtml => .raw
  | _ => .template

/-! ## Declarations -/

/-- The context that a declaration in brackets opens. -/
def ofDeclaration? : String → Option Context
  | "Template" => some .templateBody
  | "Custom" => some .customBody
  | "Origin" => some .originBody
  | "Import" => some .importStatement
  | "Namespace" => some .namespaceBody
  | "Configuration" => some .configurationBody
  | _ => none

/-- The context of the body of an origin block with a given type. Unknown
types pass through as markup. -/
def ofOriginType : String → Context
  | "Style" => .rawCss
  | "JavaScript" | "Javascript" => .rawScript
  | _ => .rawHtml

end Context

end Polyglot
