import BlockLang.Markdown.Block

/-! Test cases written in a document. A heading that begins with `Test: ` begins a case and names
it; one fenced block gives its program and others say what is expected of it. -/

namespace BlockLang

/-- What an expectation is about. -/
inductive Expectation
  | output
  | compileError
  | runtimeError
  | tree
  deriving DecidableEq

namespace Expectation

/-- The language of the fenced blocks that hold such an expectation. -/
def language : Expectation → String
  | .output => "output"
  | .compileError => "compile-error"
  | .runtimeError => "runtime-error"
  | .tree => "ast"

def all : List Expectation := [.output, .compileError, .runtimeError, .tree]

/-- The expectation that fenced blocks of a language hold. -/
def ofLanguage? (language : String) : Option Expectation :=
  all.find? (·.language = language)

end Expectation

/-- A test case: its name, the line of its document at which the program starts, the program, and
what is expected of it. -/
structure TestCase where
  name : String
  line : Nat
  input : String
  assertions : List (Expectation × String)

/-- Why a document holds no proper test cases. -/
inductive CaseError
  | noProgram (name : String)
  | noAssertions (name : String)
  | outside (line : Nat) (language : String)
  | secondProgram (line : Nat) (name : String)
  | unknownLanguage (line : Nat) (language name : String)

namespace CaseError

def message : CaseError → String
  | .noProgram name => s!"test '{name}' has no swindle fence"
  | .noAssertions name => s!"test '{name}' has no assertion fences"
  | .outside line language => s!"line {line}: {language} fence found outside of a test case"
  | .secondProgram line name => s!"line {line}: multiple swindle fences in test '{name}'"
  | .unknownLanguage line language name =>
    s!"line {line}: unknown fence language '{language}' in test '{name}'"

end CaseError

namespace TestCase

/-- The language of the fenced blocks that hold a program. -/
def programLanguage : String := "swindle"

/-- The name of the test case that a heading begins. -/
def nameOf? (heading : String) : Option String :=
  (Markdown.after? "Test: ".toList heading.toList).map String.ofList

def begin (name : String) : TestCase := ⟨name, 0, "", []⟩

/-- The test case if it has a program that is not empty, and an expectation. -/
def finish (test : TestCase) : Except CaseError TestCase :=
  if test.input.isEmpty then .error (.noProgram test.name)
  else if test.assertions.isEmpty then .error (.noAssertions test.name)
  else .ok test

def trimLineEnds (text : String) : String :=
  String.ofList (text.toList.reverse.dropWhile (· = '\n')).reverse

/-- The test case with one more fenced block. An empty program gives way to a later one. -/
def add (test : TestCase) (fence : Markdown.Fence) : Except CaseError TestCase :=
  if fence.language = programLanguage then
    if test.input.isEmpty then .ok { test with line := fence.line, input := fence.content }
    else .error (.secondProgram fence.line test.name)
  else
    match Expectation.ofLanguage? fence.language with
    | some expectation =>
      let assertion := (expectation, trimLineEnds fence.content)
      .ok { test with assertions := test.assertions ++ [assertion] }
    | none => .error (.unknownLanguage fence.line fence.language test.name)

/-- The test cases among the landmarks of a document, where the one that is being read may already
have begun. Fenced blocks without a language are left out. -/
def collect : Option TestCase → List Markdown.Landmark → Except CaseError (List TestCase)
  | none, [] => .ok []
  | some test, [] => do return [← test.finish]
  | current, .heading text :: rest =>
    match nameOf? text with
    | none => collect current rest
    | some name => do
      let done ← current.toList.mapM finish
      return done ++ (← collect (some (begin name)) rest)
  | current, .fence fence :: rest =>
    if fence.language.isEmpty then collect current rest
    else match current with
      | none => .error (.outside fence.line fence.language)
      | some test => do collect (some (← test.add fence)) rest

def ofDocument (source : String) : Except CaseError (List TestCase) :=
  collect none (Markdown.landmarks source)

end TestCase

end BlockLang
