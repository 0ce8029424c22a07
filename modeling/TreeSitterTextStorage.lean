import TreeSitterTextStorage.Library.Run
import TreeSitterTextStorage.Library.Generator
import TreeSitterTextStorage.Library.Splice
import TreeSitterTextStorage.Library.RoseTree
import TreeSitterTextStorage.Library.Extent
import TreeSitterTextStorage.Library.RoseCursor
import TreeSitterTextStorage.Library.RangedTree
import TreeSitterTextStorage.Library.Memo
import TreeSitterTextStorage.Library.Program
import TreeSitterTextStorage.Foundation.Ranges
import TreeSitterTextStorage.Foundation.Text
import TreeSitterTextStorage.Foundation.Buffer
import TreeSitterTextStorage.Runtime.Length
import TreeSitterTextStorage.Runtime.Tree
import TreeSitterTextStorage.Runtime.Edit
import TreeSitterTextStorage.Runtime.Measure
import TreeSitterTextStorage.Runtime.EditFits
import TreeSitterTextStorage.Runtime.Consistency
import TreeSitterTextStorage.Runtime.Lookahead
import TreeSitterTextStorage.Runtime.Building
import TreeSitterTextStorage.Runtime.SyntaxEdit
import TreeSitterTextStorage.Runtime.Reuse
import TreeSitterTextStorage.Runtime.Spans
import TreeSitterTextStorage.Runtime.Linking
import TreeSitterTextStorage.Runtime.EditedNodes
import TreeSitterTextStorage.Runtime.Utf16
import TreeSitterTextStorage.Runtime.CodePoints
import TreeSitterTextStorage.Runtime.Lexer
import TreeSitterTextStorage.Runtime.Stack
import TreeSitterTextStorage.Runtime.StackSound
import TreeSitterTextStorage.Runtime.StackPaths
import TreeSitterTextStorage.Runtime.ParseTable
import TreeSitterTextStorage.Runtime.Lexing
import TreeSitterTextStorage.Runtime.Parser
import TreeSitterTextStorage.Runtime.ParserSound
import TreeSitterTextStorage.Runtime.ParserReduce
import TreeSitterTextStorage.Runtime.ParserErrors
import TreeSitterTextStorage.Runtime.ParserRuns
import TreeSitterTextStorage.Runtime.KeptNodes
import TreeSitterTextStorage.Highlighting.Theme
import TreeSitterTextStorage.Highlighting.Language
import TreeSitterTextStorage.Highlighting.Node
import TreeSitterTextStorage.Highlighting.IndexWalk
import TreeSitterTextStorage.Highlighting.AttributedString
import TreeSitterTextStorage.Highlighting.OutermostTokens
import TreeSitterTextStorage.Highlighting.ParsedRanges
import TreeSitterTextStorage.Languages.Json
import TreeSitterTextStorage.Input.Input
import TreeSitterTextStorage.Input.Reading
import TreeSitterTextStorage.Input.InputText
import TreeSitterTextStorage.Input.ChunkFreshness
import TreeSitterTextStorage.Input.TokenUnits
import TreeSitterTextStorage.Input.LexedTokens
import TreeSitterTextStorage.Input.ParsedText
import TreeSitterTextStorage.Input.EditedText
import TreeSitterTextStorage.Storage.Document
import TreeSitterTextStorage.Storage.RuntimeParser
import TreeSitterTextStorage.Storage.TextStorage
import TreeSitterTextStorage.Storage.Queries
import TreeSitterTextStorage.Storage.CacheTransparency
import TreeSitterTextStorage.Storage.Highlighters
import TreeSitterTextStorage.Storage.EffectiveRange
import TreeSitterTextStorage.Storage.EditRuns
import TreeSitterTextStorage.Storage.BufferEdits
import TreeSitterTextStorage.Storage.EditDescription
import TreeSitterTextStorage.Delegate.TextStorageDelegate
import TreeSitterTextStorage.Delegate.DelegateSync
import TreeSitterTextStorage.Delegate.Recolouring
