import Sharko.Library.Runs
import Sharko.Library.Text
import Sharko.Library.FiniteMap
import Sharko.Library.Recency
import Sharko.Library.Grouping
import Sharko.Session.Numbering
import Sharko.Session.History
import Sharko.Session.Addressing
import Sharko.Netstack.Cookies
import Sharko.Netstack.SecureCookies
import Sharko.Netstack.Cache.Response
import Sharko.Netstack.Cache.Index
import Sharko.Netstack.Cache.Representation
import Sharko.Netstack.Cache.Sections
import Sharko.Netstack.Cache.System
import Sharko.Netstack.Cache.Effects
import Sharko.Netstack.Cache.Deletions
import Sharko.Netstack.Cache.ReadLatest
import Sharko.Netstack.Cache.Backing
import Sharko.Netstack.Cache.NoLoss
import Sharko.Netstack.Cache.Generations
import Sharko.Netstack.Cache.Invalidation
import Sharko.Netstack.Cache.Policy
import Sharko.Netstack.Cache.Flight
import Sharko.Netstack.Fetch
import Sharko.Netstack.StaleResponses
import Sharko.Netstack.WebSocket
import Sharko.Netstack.Client
import Sharko.Netstack.CookieSaves
import Sharko.Netstack.ClientFetches
import Sharko.Netstack.ClientSockets
import Sharko.Netstack.ClientProgress
import Sharko.Netstack.Service
import Sharko.Common.Ipc
import Sharko.Common.DisplayList
import Sharko.Engine.Frames
import Sharko.Engine.Navigation
import Sharko.Session.SameDocument
import Sharko.Session.LateMessages
import Sharko.Library.Bisection
import Sharko.Script.IndexedDb.Keys
import Sharko.Script.IndexedDb.Values
import Sharko.Script.IndexedDb.Rows
import Sharko.Script.IndexedDb.Stores
import Sharko.Script.IndexedDb.Connections
import Sharko.Script.IndexedDb.Transactions
import Sharko.Script.IndexedDb.Performing
import Sharko.Script.IndexedDb.Engine
import Sharko.Script.IndexedDb.Steps
import Sharko.Script.Flushes
import Sharko.Browser.Launcher
import Sharko.Browser.CrashSafety
import Sharko.Netstack.ScriptCookies
import Sharko.Engine.Resources
import Sharko.Netstack.Cache.Accounting
import Sharko.Netstack.Cache.Files
import Sharko.Library.Preorder
import Sharko.Script.XPath.Nodes
import Sharko.Script.XPath.Values
import Sharko.Script.XPath.Expressions
import Sharko.Script.XPath.Order
import Sharko.Script.XPath.Axes
import Sharko.Script.XPath.NodeSets
import Sharko.Script.IndexedDb.Ledger
import Sharko.Script.IndexedDb.Moves
import Sharko.Script.IndexedDb.Framed
import Sharko.Script.IndexedDb.Scheduling
import Sharko.Script.IndexedDb.Simulation
import Sharko.Script.IndexedDb.Stack
import Sharko.Script.IndexedDb.Requests
import Sharko.Script.IndexedDb.Progress
import Sharko.Script.HistoryState
import Sharko.Library.Marks
import Sharko.Library.Transducer
import Sharko.Script.TextDecoding
import Sharko.Script.TextDecoder
import Sharko.Script.TextStreams
import Sharko.Netstack.Headers
import Sharko.Netstack.Redirects
import Sharko.Netstack.Credentials
import Sharko.Script.Xhr
import Sharko.Script.XhrEvents
import Sharko.Script.PageScripts
import Sharko.Script.ScriptOrder
import Sharko.Forms.Checkedness
import Sharko.Script.WebLocks
import Sharko.Forms.Selects
import Sharko.Forms.SelectStates
import Sharko.Forms.SelectRuns
import Sharko.Library.Forest
import Sharko.Forms.Radios
import Sharko.Forms.RadioInputs
import Sharko.Forms.RadioGroups
import Sharko.Library.Logged
import Sharko.Script.Glsl.Places
import Sharko.Script.Glsl.Lvalues
import Sharko.Script.Glsl.Calls
import Sharko.Forms.EntryLists
import Sharko.Forms.EntryControls
import Sharko.Forms.EntryValues
import Sharko.Library.Numbers
import Sharko.Script.WebGl.Primitives
import Sharko.Library.Fourier
import Sharko.Script.WebAudio.Fft
import Sharko.Script.Shaders.Constants
import Sharko.Script.Shaders.Conditions
import Sharko.Script.Shaders.Preprocessor
import Sharko.Library.Folds
import Sharko.Script.Shaders.Groups
import Sharko.Script.Shaders.Selection
import Sharko.Library.Plane
import Sharko.Script.WebGl.Coverage
import Sharko.Script.WebAudio.Automation
import Sharko.Script.WebAudio.Shortcuts
import Sharko.Script.WebAudio.Holding
import Sharko.Script.Shaders.Grammar
import Sharko.Script.Shaders.Parsing
import Sharko.Library.Fuel
import Sharko.Script.Shaders.Expressions
import Sharko.Library.Alternation
import Sharko.Library.Clipping
import Sharko.Script.WebGl.Clipping
import Sharko.Script.WebApi.Utf8
import Sharko.Script.WebApi.UrlEncoding
import Sharko.Script.WebApi.AesCounter
import Sharko.Script.WebApi.Multipart
import Sharko.Forms.Encoders
import Sharko.Library.Delimiting
import Sharko.Script.WebApi.MultipartDecoding
import Sharko.Script.WebAudio.Wav
import Sharko.Script.WebApi.Streams
import Sharko.Script.Dom.Attributes
import Sharko.Library.Navigation
import Sharko.Script.Dom.Nodes
import Sharko.Script.Dom.NodeIterators
import Sharko.Library.Contraction
import Sharko.Script.Dom.TreeWalkers
import Sharko.Script.DynamicScripts
import Sharko.Library.Grafting
import Sharko.Script.Dom.Moves
import Sharko.Script.Dom.NodeDocuments
import Sharko.Library.Versions
import Sharko.Script.Dom.LiveCollections
import Sharko.Netstack.Cache.Validation
import Sharko.Script.LocalStorageCalls
import Sharko.Script.LocalStorageOrigins
import Sharko.Netstack.RedirectChains
import Sharko.Netstack.Cache.EntryFormat
import Sharko.Netstack.Cache.Reopening
import Sharko.Library.History
import Sharko.Script.Events.Dispatch
import Sharko.Script.Events.Order
import Sharko.Script.Events.Visits
import Sharko.Library.Outcomes
import Sharko.Script.XPath.Reference
import Sharko.Script.XPath.Merging
import Sharko.Script.XPath.Optimisations
import Sharko.Script.IndexedDb.Cursors
import Sharko.Script.IndexedDb.KeyValues
import Sharko.Script.XPath.Comparisons
import Sharko.Script.XPath.Partition
import Sharko.Library.Worklist
import Sharko.Script.Html.Serializer
import Sharko.Script.Html.Fragments
import Sharko.Library.KeyLists
import Sharko.Script.Modules.ImportMaps
import Sharko.Script.Modules.Resolution
import Sharko.Script.Modules.Settling
