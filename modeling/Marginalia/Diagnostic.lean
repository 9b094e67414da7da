import Marginalia.Text.Decimal

/-
  This file defines the remarks that the server makes about its
  work for whoever debugs a grammar or a client.

  Key definitions include:
    * `Diagnostic`
    * `Diagnostic.message`
-/

namespace Marginalia

/-
  A remark.  The first group is about grammars, the second about
  the files they are in, the third about the conversation with
  the client.
-/
inductive Diagnostic where
| rejectedPattern (source : Bytes)
| unresolvedReference (reference grammar : Bytes)
| missingEntry (name grammar : Bytes)
| beginWithoutEnd (source : Bytes)
| unreadableGrammar (path : Bytes)
| malformedGrammar (path : Bytes)
| unreadableDescriptors (path : Bytes)
| malformedDescriptors (path : Bytes)
| loading (language path : Bytes)
| scopeMismatch (expected found : Bytes)
| ready (grammars : Nat) (target : Bytes) (merging : Bool)
| lookedUp (uri : Bytes) (line character : Int) (status : Nat)
| malformedMessage
| malformedLength
| failedRequest (method error : Bytes)
| unexpectedResponse (message : Bytes)
| unexpectedGloss (result : Bytes)
| noGloss
deriving DecidableEq, Repr

namespace Diagnostic

/- The wording of a remark. -/
def message : Diagnostic → Bytes
| rejectedPattern source =>
    utf8 "unsupported pattern '" ++ source ++ utf8 "'"
| unresolvedReference reference grammar =>
    utf8 "unresolved include '" ++ reference ++ utf8 "' in " ++ grammar
| missingEntry name grammar =>
    utf8 "missing repository entry '#" ++ name ++ utf8 "' in " ++ grammar
| beginWithoutEnd source =>
    utf8 "begin rule without end (while rules are not supported): " ++
      source
| unreadableGrammar path => utf8 "cannot open grammar file: " ++ path
| malformedGrammar path => utf8 "failed to parse grammar " ++ path
| unreadableDescriptors path =>
    utf8 "grammar descriptor file not found: " ++ path
| malformedDescriptors path =>
    utf8 "invalid grammar descriptor file " ++ path
| loading language path =>
    utf8 "loading grammar for " ++ language ++ utf8 ": " ++ path
| scopeMismatch expected found =>
    utf8 "grammar scope mismatch: expected " ++ expected ++
      utf8 ", got " ++ found
| ready grammars target merging =>
    utf8 "initialize: grammars=" ++ Decimal.ofNat grammars ++
      utf8 " target=" ++ target ++ utf8 " multiLineMerge=" ++
      utf8 (if merging then "1" else "0")
| lookedUp uri line character status =>
    utf8 "getComment " ++ uri ++ utf8 " " ++ Decimal.ofInt line ++
      utf8 ":" ++ Decimal.ofInt character ++ utf8 " status=" ++
      Decimal.ofNat status
| malformedMessage => utf8 "JSON parse error"
| malformedLength => utf8 "invalid Content-Length: stoul"
| failedRequest method error => method ++ utf8 " failed: " ++ error
| unexpectedResponse message => utf8 "unexpected response: " ++ message
| unexpectedGloss result =>
    utf8 "unexpected translate result: " ++ result
| noGloss => utf8 "translate request failed"

/- The line by which a remark is shown. -/
def line (d : Diagnostic) : Bytes :=
  utf8 "[DEBUG] " ++ d.message

end Diagnostic

end Marginalia
