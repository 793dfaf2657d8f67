import MoonMessenger.Layout
import MoonMessenger.ChatView
import MoonMessenger.Building
import MoonMessenger.Grouping
import MoonMessenger.Seen
import MoonMessenger.Decoding
import MoonMessenger.Lib.ReadModifyWrite
import MoonMessenger.OpenChat
import MoonMessenger.JoinedConvos
import MoonMessenger.ConvoList
import MoonMessenger.ConvoName
import MoonMessenger.Traps
import MoonMessenger.Scroll
import MoonMessenger.Hashing
import MoonMessenger.BubbleCells
import MoonMessenger.ConvoKeys
import MoonMessenger.Answers
import MoonMessenger.ChannelEditor
import MoonMessenger.Username
import MoonMessenger.ConvoCell
import MoonMessenger.Profile
import MoonMessenger.AvatarBadge
import MoonMessenger.ChatObservers
import MoonMessenger.SeenBadge
import MoonMessenger.DateHeaders
import MoonMessenger.Blocks
import MoonMessenger.Lib.Truncation
import MoonMessenger.Lib.Overlay
import MoonMessenger.NodeValue
import MoonMessenger.CompoundWrite
import MoonMessenger.WriteTree
import MoonMessenger.RelativeTime
import MoonMessenger.Preview
import MoonMessenger.MessageFlags
import MoonMessenger.KeyOrder
import MoonMessenger.PushId
import MoonMessenger.Registers
import MoonMessenger.Messenger
import MoonMessenger.ConvoFeed
import MoonMessenger.LLRBRemove
import MoonMessenger.TreeBuilder
import MoonMessenger.SortedDictionary
import MoonMessenger.SameValue
import MoonMessenger.StoredWrites
import MoonMessenger.Client
