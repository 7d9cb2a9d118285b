import NuttxApps.Bluetooth.AdvertiserData
import NuttxApps.Bluetooth.IndexAllocator
import NuttxApps.Bootctl.Fallback
import NuttxApps.Bootctl.Marks
import NuttxApps.Charger.Adapter
import NuttxApps.Charger.Plot
import NuttxApps.Charger.Vterm
import NuttxApps.Codecs.Base64
import NuttxApps.Codecs.Url
import NuttxApps.Dhcpd.Exclusive
import NuttxApps.Dhcpd.Reference
import NuttxApps.Inifile.Lookup
import NuttxApps.Ipcfg.Cells
import NuttxApps.Kvdb.File
import NuttxApps.Kvdb.Framing
import NuttxApps.Media.Capacity
import NuttxApps.Media.Focus
import NuttxApps.Mkfatfs.Fsinfo
import NuttxApps.Mkgpt.Layout
import NuttxApps.Mml.Calls
import NuttxApps.Nsh.Depth
import NuttxApps.Nsh.Itef
import NuttxApps.Nsh.Skip
import NuttxApps.Nsh.Test
import NuttxApps.Nsh.Command
import NuttxApps.Nsh.Vars
import NuttxApps.Nxboot.ConfirmCut
import NuttxApps.Nxboot.Validate
import NuttxApps.Nxscope.Recv
import NuttxApps.Nxscope.Stream
import NuttxApps.Passwd.Database
import NuttxApps.Pfw.Apply
import NuttxApps.Pfw.Literals
import NuttxApps.Readline.Bounds
import NuttxApps.Readline.Lines
import NuttxApps.Settings.Reach
import NuttxApps.Settings.RoundTrip
import NuttxApps.ZipVerify.Cover
import NuttxApps.ZipVerify.Verify
import NuttxApps.Ymodem.Faithful
import NuttxApps.Zmodem.Append
import NuttxApps.Zmodem.Bounds
import NuttxApps.Zmodem.Position
