import Lucie.Foundation.Loop
import Lucie.SumTree.Node
import Lucie.SumTree.Append
import Lucie.SumTree.AppendCorrect
import Lucie.SumTree.Cursor
import Lucie.SumTree.Path
import Lucie.SumTree.Seek
import Lucie.SumTree.Place
import Lucie.SumTree.Forward
import Lucie.SumTree.SearchForward
import Lucie.SumTree.SearchBackward
import Lucie.Keymap.Keystroke
import Lucie.Keymap.Context
import Lucie.Keymap.Superset
import Lucie.Keymap.Keymap
import Lucie.Keymap.Precedence
import Lucie.Keymap.Pending
import Lucie.Keymap.Dispatch
import Lucie.Keymap.Segments
import Lucie.Subscription.SubscriberSet
import Lucie.Subscription.Cancel
import Lucie.SumTree.Steps
import Lucie.Foundation.RootedTree
import Lucie.Geometry.Bounds
import Lucie.BoundsTree.Tree
import Lucie.BoundsTree.Shape
import Lucie.BoundsTree.Attach
import Lucie.BoundsTree.Insert
import Lucie.BoundsTree.Propagate
import Lucie.BoundsTree.Search
import Lucie.Foundation.Merge
import Lucie.Scene.Scene
import Lucie.Scene.Batches
import Lucie.Scene.DrawOrder
import Lucie.Foundation.SlotMap
import Lucie.Entity.EntityMap
import Lucie.Entity.RefCounts
import Lucie.App.Effects
import Lucie.App.Notifications
import Lucie.App.WindowTabs
import Lucie.Keymap.ParsePredicate
import Lucie.Keymap.Grammar
import Lucie.Keymap.Pratt
import Lucie.Keymap.ParseCorrect
import Lucie.Keymap.Display
import Lucie.Text.Layout
import Lucie.Text.Sharing
import Lucie.Window.Transact
import Lucie.ItemList.State
import Lucie.Window.Paint
import Lucie.Window.Forest
import Lucie.Window.Walks
import Lucie.Window.Framed
import Lucie.Window.Session
import Lucie.Window.Reuse
import Lucie.Window.ElementStates
import Lucie.Atlas.Removal
import Lucie.ItemList.Pending
import Lucie.TabStop.Cycle
import Lucie.SumTree.FilterCursor
import Lucie.ItemList.Scrollbar
import Lucie.ItemList.LayoutDown
import Lucie.ItemList.LayoutUp
import Lucie.ItemList.Positioned
import Lucie.ItemList.LaidOut
import Lucie.ItemList.ScrollRange
import Lucie.Keymap.ParseContext
import Lucie.Keymap.ActionBindings
import Lucie.UniformList.VisibleRange
import Lucie.SumTree.Find
import Lucie.SumTree.Balance
import Lucie.SumTree.CursorStack
import Lucie.SumTree.KeyedItem
import Lucie.BoundsTree.Invariant
import Lucie.Scene.Replay
import Lucie.SumTree.Slices
import Lucie.Foundation.Contiguous
import Lucie.TabStop.Groups
import Lucie.Keymap.ParseKeystroke
import Lucie.Keymap.KeystrokeGrammar
import Lucie.Foundation.ThroughFirst
import Lucie.Foundation.ByteSlice
import Lucie.Foundation.RoundBinary
import Lucie.Foundation.ReverseIndex
import Lucie.Foundation.Exact
import Lucie.Geometry.Points
import Lucie.Window.HitTest
import Lucie.Color.Hsla
import Lucie.Color.ParseRgba
import Lucie.Queue.PriorityQueue
import Lucie.Arena.Chunk
import Lucie.Arena.Alloc
import Lucie.App.Tracking
import Lucie.Window.Activation
import Lucie.Text.Align
import Lucie.Subscription.Tidy
import Lucie.Subscription.Retain
import Lucie.Window.MouseDispatch
import Lucie.Div.Drop
import Lucie.Div.Press
import Lucie.Atlas.TextureStorage
import Lucie.Atlas.Books
import Lucie.Atlas.DirectXAtlas
import Lucie.Atlas.DeviceFailures
import Lucie.Atlas.BladeAtlas
import Lucie.Atlas.QueuedUploads
import Lucie.Window.DirtyViews
import Lucie.Style.HighlightStyle
import Lucie.Style.CombineHighlights
import Lucie.Text.Paint
import Lucie.Text.Decorations
import Lucie.Text.Truncated
import Lucie.Text.LineLayer
import Lucie.Text.CharacterHits
import Lucie.Window.GlobalElementId
import Lucie.Http.AsyncBody
import Lucie.Path.Dashes
import Lucie.Refineable.Derive
import Lucie.Refineable.Laws
import Lucie.LayoutEngine.Tree
import Lucie.LayoutEngine.Bounds
import Lucie.Anchored.Prepaint
import Lucie.Anchored.Placement
import Lucie.ItemList.MeasuredItems
import Lucie.ItemList.ItemBounds
import Lucie.ItemList.Autoscroll
import Lucie.Div.ScrollHandle
import Lucie.Input.ScrollDelta
import Lucie.Elements.Img
import Lucie.Elements.Animation
import Lucie.Queue.Waiting
import Lucie.Font.HintCache
import Lucie.Font.ColorGlyphPen
import Lucie.X11.Targets
import Lucie.X11.OwnedSelection
import Lucie.Window.ActionDispatch
import Lucie.Div.Translation
import Lucie.Text.WrappedText
import Lucie.Style.TextRuns
import Lucie.Text.GlyphPosition
import Lucie.X11.Valuators
import Lucie.Text.LineForOffset
import Lucie.SumTree.Iter
import Lucie.Foundation.Nesting
import Lucie.Queue.Wakeups
import Lucie.App.Leases
import Lucie.App.LeaseSteps
import Lucie.App.LeasedEntities
import Lucie.App.LeasedWindows
import Lucie.Window.Typing
import Lucie.Foundation.Journal
import Lucie.Wayland.Configure
import Lucie.Wayland.Answers
import Lucie.Wayland.FloatingSize
import Lucie.Wayland.KeyRepeat
import Lucie.Foundation.Joining
import Lucie.Text.SelectedLine
import Lucie.Text.Selection
import Lucie.Window.FocusEvents
import Lucie.Window.Contents
import Lucie.Window.Slices
import Lucie.Window.Rendering
import Lucie.Window.Repainting
import Lucie.Window.CachedPrepaint
import Lucie.Window.CachedPaint
import Lucie.Window.CachedFrames
