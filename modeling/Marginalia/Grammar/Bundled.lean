import Marginalia.Json.Printer

/-
  This file holds the grammars that come with the server.  They
  know little of their languages: only comments, and the strings
  and escapes in which a comment mark means nothing.

  Key definitions include:
    * `Bundled.cstyle`, `Bundled.hash`, `Bundled.dashdash`
    * `Bundled.markup`, `Bundled.percent`, `Bundled.semicolon`
    * `Bundled.descriptors`
    * `Bundled.grammar?`
    * `Bundled.file?`
-/

namespace Marginalia

namespace Bundled

open Json (record)

/- A text. -/
def text (s : String) : Json :=
  Json.ofString s

/- A reference to other rules. -/
def refer (reference : String) : Json :=
  record [("include", text reference)]

/- The scope name of one group. -/
def capture (number scope : String) : Json :=
  record [(number, record [("name", text scope)])]

------------------------------------------------------------
-- Slashes
------------------------------------------------------------

/- Slash comments, as in C and its relatives. -/
def cstyle : Json :=
  record
    [ ("name", text "C-style comments"),
      ("scopeName", text "source.cstyle"),
      ("patterns",
        .array
          [ refer "#comments",
            refer "#strings" ]),
      ("repository",
        record
          [ ("comments",
              record
                [ ("patterns",
                    .array
                      [ record
                          [ ("name",
                              text "comment.block.documentation.cstyle"),
                            ("begin", text "/\\*\\*(?![*/])"),
                            ("beginCaptures",
                              capture "0" "punctuation.definition.comment.begin.cstyle"),
                            ("end", text "\\*+/"),
                            ("endCaptures",
                              capture "0" "punctuation.definition.comment.end.cstyle") ],
                        record
                          [ ("name", text "comment.block.cstyle"),
                            ("begin", text "/\\*"),
                            ("beginCaptures",
                              capture "0" "punctuation.definition.comment.begin.cstyle"),
                            ("end", text "\\*/"),
                            ("endCaptures",
                              capture "0" "punctuation.definition.comment.end.cstyle") ],
                        record
                          [ ("name",
                              text "comment.line.double-slash.documentation.cstyle"),
                            ("match", text "(//[/!])(.*)$"),
                            ("captures",
                              capture "1" "punctuation.definition.comment.cstyle") ],
                        record
                          [ ("name",
                              text "comment.line.double-slash.cstyle"),
                            ("match", text "(//)(.*)$"),
                            ("captures",
                              capture "1" "punctuation.definition.comment.cstyle") ] ]) ]),
            ("strings",
              record
                [ ("patterns",
                    .array
                      [ record
                          [ ("name", text "string.quoted.double.cstyle"),
                            ("begin", text "\""),
                            ("beginCaptures",
                              capture "0" "punctuation.definition.string.begin.cstyle"),
                            ("end", text "\"|$"),
                            ("endCaptures",
                              capture "0" "punctuation.definition.string.end.cstyle"),
                            ("patterns",
                              .array
                                [ refer "#escape" ]) ],
                        record
                          [ ("name", text "string.quoted.single.cstyle"),
                            ("match", text "'(?:[^'\\\\]++|\\\\.)*+'") ],
                        record
                          [ ("name",
                              text "string.quoted.other.template.cstyle"),
                            ("begin", text "`"),
                            ("end", text "`"),
                            ("patterns",
                              .array
                                [ refer "#escape" ]) ] ]) ]),
            ("escape",
              record
                [ ("name", text "constant.character.escape.cstyle"),
                  ("match", text "\\\\.") ]) ]) ]

------------------------------------------------------------
-- Number Signs
------------------------------------------------------------

/- Comments after `#`, with documentation between three quotes. -/
def hash : Json :=
  record
    [ ("name", text "Hash comments"),
      ("scopeName", text "source.hash"),
      ("patterns",
        .array
          [ refer "#docstrings",
            refer "#special-variables",
            refer "#comments",
            refer "#strings" ]),
      ("repository",
        record
          [ ("docstrings",
              record
                [ ("patterns",
                    .array
                      [ record
                          [ ("name",
                              text "comment.block.documentation.hash"),
                            ("begin", text "(\"\"\"|''')"),
                            ("beginCaptures",
                              capture "1" "punctuation.definition.comment.begin.hash"),
                            ("end", text "(\\1)"),
                            ("endCaptures",
                              capture "1" "punctuation.definition.comment.end.hash") ] ]) ]),
            ("special-variables",
              record
                [ ("name", text "variable.other.special.hash"),
                  ("match",
                    text "\\$[#?$!@*0-9]|\\$\\\x7b#[^\x7d]*\\\x7d") ]),
            ("comments",
              record
                [ ("patterns",
                    .array
                      [ record
                          [ ("name", text "comment.line.number-sign.hash"),
                            ("match", text "(#+!?)(.*)$"),
                            ("captures",
                              capture "1" "punctuation.definition.comment.hash") ] ]) ]),
            ("strings",
              record
                [ ("patterns",
                    .array
                      [ record
                          [ ("name", text "string.quoted.double.hash"),
                            ("begin", text "\""),
                            ("end", text "\"|$"),
                            ("patterns",
                              .array
                                [ record
                                    [ ("match", text "\\\\."),
                                      ("name",
                                        text "constant.character.escape.hash") ] ]) ],
                        record
                          [ ("name", text "string.quoted.single.hash"),
                            ("match", text "'(?:[^'\\\\]++|\\\\.)*+'") ] ]) ]) ]) ]

------------------------------------------------------------
-- Dashes
------------------------------------------------------------

/- Comments after two dashes, with three kinds of blocks. -/
def dashdash : Json :=
  record
    [ ("name", text "Double-dash comments"),
      ("scopeName", text "source.dashdash"),
      ("patterns",
        .array
          [ refer "#comments",
            refer "#strings" ]),
      ("repository",
        record
          [ ("comments",
              record
                [ ("patterns",
                    .array
                      [ record
                          [ ("name", text "comment.block.long.dashdash"),
                            ("begin", text "--\\[(=*)\\["),
                            ("beginCaptures",
                              capture "0" "punctuation.definition.comment.begin.dashdash"),
                            ("end", text "\\]\\1\\]"),
                            ("endCaptures",
                              capture "0" "punctuation.definition.comment.end.dashdash") ],
                        record
                          [ ("name", text "comment.block.dashdash"),
                            ("begin", text "/\\*"),
                            ("beginCaptures",
                              capture "0" "punctuation.definition.comment.begin.dashdash"),
                            ("end", text "\\*/"),
                            ("endCaptures",
                              capture "0" "punctuation.definition.comment.end.dashdash") ],
                        record
                          [ ("name", text "comment.block.brace.dashdash"),
                            ("begin", text "\\\x7b-(?!#)"),
                            ("beginCaptures",
                              capture "0" "punctuation.definition.comment.begin.dashdash"),
                            ("end", text "-\\\x7d"),
                            ("endCaptures",
                              capture "0" "punctuation.definition.comment.end.dashdash") ],
                        record
                          [ ("name",
                              text "comment.line.double-dash.dashdash"),
                            ("match", text "(--+)(.*)$"),
                            ("captures",
                              capture "1" "punctuation.definition.comment.dashdash") ] ]) ]),
            ("strings",
              record
                [ ("patterns",
                    .array
                      [ record
                          [ ("name", text "string.quoted.double.dashdash"),
                            ("begin", text "\""),
                            ("end", text "\"|$"),
                            ("patterns",
                              .array
                                [ record
                                    [ ("match", text "\\\\."),
                                      ("name",
                                        text "constant.character.escape.dashdash") ] ]) ],
                        record
                          [ ("name", text "string.quoted.single.dashdash"),
                            ("match", text "'(?:[^'\\\\]++|\\\\.|'')*+'") ] ]) ]) ]) ]

------------------------------------------------------------
-- Markup
------------------------------------------------------------

/- Comments of markup languages. -/
def markup : Json :=
  record
    [ ("name", text "Markup comments"),
      ("scopeName", text "text.markup"),
      ("patterns",
        .array
          [ refer "#comments",
            refer "#cdata" ]),
      ("repository",
        record
          [ ("comments",
              record
                [ ("name", text "comment.block.markup"),
                  ("begin", text "<!--"),
                  ("beginCaptures",
                    capture "0" "punctuation.definition.comment.begin.markup"),
                  ("end", text "--\\s*>"),
                  ("endCaptures",
                    capture "0" "punctuation.definition.comment.end.markup") ]),
            ("cdata",
              record
                [ ("name", text "string.unquoted.cdata.markup"),
                  ("begin", text "<!\\[CDATA\\["),
                  ("end", text "\\]\\]>") ]) ]) ]

------------------------------------------------------------
-- Percent Signs
------------------------------------------------------------

/- Comments after `%`, with blocks whose marks stand on lines of their own. -/
def percent : Json :=
  record
    [ ("name", text "Percent comments"),
      ("scopeName", text "source.percent"),
      ("patterns",
        .array
          [ refer "#escapes",
            refer "#comments" ]),
      ("repository",
        record
          [ ("escapes",
              record
                [ ("name", text "constant.character.escape.percent"),
                  ("match", text "\\\\.") ]),
            ("comments",
              record
                [ ("patterns",
                    .array
                      [ record
                          [ ("name", text "comment.block.percent"),
                            ("begin", text "^\\s*(%\\\x7b)\\s*$"),
                            ("beginCaptures",
                              capture "1" "punctuation.definition.comment.begin.percent"),
                            ("end", text "^\\s*(%\\\x7d)\\s*$"),
                            ("endCaptures",
                              capture "1" "punctuation.definition.comment.end.percent") ],
                        record
                          [ ("name",
                              text "comment.line.percentage.percent"),
                            ("match", text "(%+)(.*)$"),
                            ("captures",
                              capture "1" "punctuation.definition.comment.percent") ] ]) ]) ]) ]

------------------------------------------------------------
-- Semicolons
------------------------------------------------------------

/- Comments after `;`, with blocks between bars. -/
def semicolon : Json :=
  record
    [ ("name", text "Semicolon comments"),
      ("scopeName", text "source.semicolon"),
      ("patterns",
        .array
          [ refer "#block-comments",
            refer "#comments",
            refer "#strings" ]),
      ("repository",
        record
          [ ("block-comments",
              record
                [ ("name", text "comment.block.semicolon"),
                  ("begin", text "#\\|"),
                  ("beginCaptures",
                    capture "0" "punctuation.definition.comment.begin.semicolon"),
                  ("end", text "\\|#"),
                  ("endCaptures",
                    capture "0" "punctuation.definition.comment.end.semicolon") ]),
            ("comments",
              record
                [ ("name", text "comment.line.semicolon.semicolon"),
                  ("match", text "(;+)(.*)$"),
                  ("captures",
                    capture "1" "punctuation.definition.comment.semicolon") ]),
            ("strings",
              record
                [ ("name", text "string.quoted.double.semicolon"),
                  ("begin", text "\""),
                  ("end", text "\""),
                  ("patterns",
                    .array
                      [ record
                          [ ("match", text "\\\\."),
                            ("name",
                              text "constant.character.escape.semicolon") ] ]) ]) ]) ]

------------------------------------------------------------
-- Descriptors
------------------------------------------------------------

/- The entry of a grammar in the list of grammars. -/
def entry
    (languages : List String)
    (scopeName path : String) : Json :=
  record
    [ ("languages", .array (languages.map text)),
      ("scopeName", text scopeName),
      ("path", text path) ]

/- Which grammar serves which languages. -/
def descriptors : Json :=
  .array
    [ entry
          ["c", "cpp", "cuda-cpp", "objective-c", "objective-cpp",
           "csharp", "java", "javascript", "javascriptreact", "typescript",
           "typescriptreact", "go", "rust", "swift", "kotlin", "scala",
           "dart", "php", "groovy", "jsonc", "proto", "glsl", "hlsl"]
          "source.cstyle" "cstyle.tmLanguage.json",
      entry
          ["python", "shellscript", "ruby", "perl", "r", "yaml", "toml",
           "makefile", "dockerfile", "cmake", "powershell", "coffeescript",
           "elixir", "nim", "julia", "properties"]
          "source.hash" "hash.tmLanguage.json",
      entry
          ["lua", "sql", "haskell", "elm", "ada", "vhdl", "purescript"]
          "source.dashdash" "dashdash.tmLanguage.json",
      entry
          ["html", "xml", "xsl", "svg", "markdown", "vue-html"]
          "text.markup" "markup.tmLanguage.json",
      entry
          ["latex", "tex", "bibtex", "matlab", "erlang", "prolog",
           "postscript"]
          "source.percent" "percent.tmLanguage.json",
      entry
          ["lisp", "clojure", "scheme", "racket", "ini", "asm",
           "autohotkey"]
          "source.semicolon" "semicolon.tmLanguage.json" ]

------------------------------------------------------------
-- Files
------------------------------------------------------------

/- The grammar of a name. -/
def grammar? (name : Bytes) : Option Json :=
  if name = utf8 "cstyle" then some cstyle
  else if name = utf8 "hash" then some hash
  else if name = utf8 "dashdash" then some dashdash
  else if name = utf8 "markup" then some markup
  else if name = utf8 "percent" then some percent
  else if name = utf8 "semicolon" then some semicolon
  else none

/- The end of the name of a grammar file. -/
def suffix : Bytes :=
  utf8 ".tmLanguage.json"

/- The value that the file of a name holds. -/
def value? (file : Bytes) : Option Json :=
  if file = utf8 "grammars.json" then some descriptors
  else if suffix.isSuffixOf file then
    grammar? (file.take (file.length - suffix.length))
  else none

/- The content of the file of a name. -/
def file? (file : Bytes) : Option Bytes :=
  (value? file).map Json.compact

end Bundled

end Marginalia
